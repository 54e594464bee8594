/-
The signed messages of the account ledger: transactions
(`internal/tx/envelope.go`), block proposals and votes
(`internal/consensus/messages.go`), and the rules for chain identifiers
(`internal/protocol/security.go`).

# Strings and times

A Go string is its bytes. A `time.Time` is a number of nanoseconds since
Go's zero time, so `IsZero` is equality with 0 and `Equal` is equality;
the location and the monotonic reading play no part in what is modelled.
Heights are numbers: they count blocks, so they stay far below 64 bits.

# The standard library

`Host` collects what the packages take from Go. JSON is one function for
each record that is hashed or signed; `json.Marshal` cannot fail on them,
apart from the committed state, which holds floats (`State`).
-/
import ZephyrChain.Tx

namespace ZephyrChain.Ledger

open Lib

abbrev Time := Int

/-- The error values of the modelled packages. -/
inductive Error where
  -- protocol
  | protocolChainID
  -- tx
  | txMissingFields
  | txInvalidAmount
  | txInvalidPayload
  | txInvalidPublicKey
  | txInvalidAddress
  | txInvalidSignature
  | txNonCanonicalSignature
  | txInvalidChainID
  | txInvalidDomain
  -- consensus
  | missingFields
  | invalidPayload
  | invalidPublicKey
  | invalidAddress
  | invalidSignature
  | invalidChainID
  | invalidDomain
  | invalidHash
  | invalidProposalStateRoot
  | invalidHeight
  | invalidProducedAt
  | invalidTransactionID
  | missingTransactions
  | invalidProposalTransaction
  | transactionMismatch
  | hashMismatch
  -- ledger
  | duplicateTransaction
  | invalidNonce
  | insufficientBalance
  | noTransactionsToBlock
  | blockInvariant
  | invalidBlock
  | blockOutOfSequence
  | blockConflict
  | balanceOverflow
  | nonceExhausted
  | votingPowerOverflow
  | stateChainMismatch
  | invalidStateRoot
  | noValidatorSet
  | validatorNotActive
  | unexpectedProposer
  | consensusHeightMismatch
  | consensusPreviousHash
  | consensusRoundMismatch
  | conflictingProposal
  | unknownProposal
  | conflictingVote
  | consensusProposalRequired
  | consensusTemplateMismatch
  | consensusCertificateRequired
  | certifiedEvidenceInvalid
  | certifiedEvidenceQuorum
  | invalidSnapshot
  | snapshotChainMismatch
  | snapshotProofInvalid
  | snapshotQuorumRequired
  -- errors of the standard library
  | json
  | io
  deriving DecidableEq, Repr

-- ==== records

structure Envelope where
  chainID : Bytes
  domain : Bytes
  fromAddress : Bytes
  toAddress : Bytes
  amount : UInt64
  nonce : UInt64
  memo : Bytes
  payload : Bytes
  publicKey : Bytes
  signature : Bytes
  deriving DecidableEq

structure CanonicalPayload where
  amount : UInt64
  chainID : Bytes
  domain : Bytes
  fromAddress : Bytes
  memo : Bytes
  nonce : UInt64
  toAddress : Bytes
  deriving DecidableEq

structure CanonicalIdentity where
  amount : UInt64
  chainID : Bytes
  domain : Bytes
  fromAddress : Bytes
  memo : Bytes
  nonce : UInt64
  publicKey : Bytes
  toAddress : Bytes
  deriving DecidableEq

structure Proposal where
  chainID : Bytes
  domain : Bytes
  height : Nat
  round : UInt64
  blockHash : Bytes
  previousHash : Bytes
  stateRoot : Bytes
  producedAt : Time
  transactionIDs : List Bytes
  transactions : List Envelope
  proposer : Bytes
  payload : Bytes
  publicKey : Bytes
  signature : Bytes
  proposedAt : Time
  deriving DecidableEq

structure Vote where
  chainID : Bytes
  domain : Bytes
  height : Nat
  round : UInt64
  blockHash : Bytes
  voter : Bytes
  payload : Bytes
  publicKey : Bytes
  signature : Bytes
  votedAt : Time
  deriving DecidableEq

structure CanonicalProposal where
  blockHash : Bytes
  chainID : Bytes
  domain : Bytes
  height : Nat
  previousHash : Bytes
  producedAt : Bytes
  proposer : Bytes
  round : UInt64
  stateRoot : Bytes
  transactionIDs : List Bytes
  deriving DecidableEq

structure CanonicalVote where
  blockHash : Bytes
  chainID : Bytes
  domain : Bytes
  height : Nat
  round : UInt64
  voter : Bytes
  deriving DecidableEq

structure CanonicalBlock where
  chainID : Bytes
  domain : Bytes
  height : Nat
  previousHash : Bytes
  producedAt : Bytes
  stateRoot : Bytes
  transactionIDs : List Bytes
  deriving DecidableEq

structure CanonicalSnapshotProof where
  blockHash : Bytes
  chainID : Bytes
  domain : Bytes
  height : Nat
  signer : Bytes
  stateCommitment : Bytes
  validatorSetVersion : UInt64
  deriving DecidableEq

structure ElectionConfig where
  maxValidators : Int
  minSelfStake : UInt64
  maxMissedBlocks : UInt64
  deriving DecidableEq

structure CommittedAccount where
  address : Bytes
  balance : UInt64
  nonce : UInt64
  deriving DecidableEq

/-- `commissionRate` holds the 64 bits of the source's float. -/
structure CommittedValidator where
  address : Bytes
  commissionRate : UInt64
  delegatedStake : UInt64
  rank : Int
  selfStake : UInt64
  votingPower : UInt64
  deriving DecidableEq

structure CommittedStatePayload where
  accounts : List CommittedAccount
  appliedFundingIDs : List Bytes
  chainID : Bytes
  domain : Bytes
  electionConfig : ElectionConfig
  validatorSetVersion : UInt64
  validators : List CommittedValidator
  deriving DecidableEq

-- ==== the host

/-- What the packages take from the Go standard library. -/
structure Host where
  /-- `crypto/sha256`. -/
  sha256 : Bytes → Bytes32
  /-- `base64.StdEncoding.DecodeString`. -/
  base64Decode : Bytes → Option Bytes
  /-- `x509.ParsePKIXPublicKey` returns a P-256 key. -/
  isP256Key : Bytes → Bool
  /-- `ecdsa.Verify` for the key these bytes encode. -/
  ecdsaVerify : (key : Bytes) → (digest : Bytes32) → (r s : Nat) → Bool
  /-- The code points a `range` over the string yields. -/
  runes : Bytes → List Nat
  /-- `unicode.IsLetter(r) || unicode.IsDigit(r)`. -/
  isLetterOrDigit : Nat → Bool
  /-- `t.UTC().Format(time.RFC3339Nano)`. -/
  formatTime : Time → Bytes
  /-- `json.Marshal` of each record that is hashed or signed. -/
  marshalPayload : CanonicalPayload → Bytes
  marshalIdentity : CanonicalIdentity → Bytes
  marshalProposal : CanonicalProposal → Bytes
  marshalVote : CanonicalVote → Bytes
  marshalBlock : CanonicalBlock → Bytes
  marshalSnapshotProof : CanonicalSnapshotProof → Bytes
  marshalState : CommittedStatePayload → Bytes

/-- One half of a byte as `encoding/hex` writes it. -/
def hexDigit (n : UInt8) : UInt8 := if n < 10 then 48 + n else 87 + n

/-- `hex.EncodeToString`. -/
def hexEncode (bs : Bytes) : Bytes :=
  bs.flatMap fun b => [hexDigit (b / 16), hexDigit (b % 16)]

/-- The characters `hex.DecodeString` accepts. -/
def isHexDigit (c : UInt8) : Bool :=
  (48 ≤ c && c ≤ 57) || (97 ≤ c && c ≤ 102) || (65 ≤ c && c ≤ 70)

variable (H : Host)

/-- The hexadecimal text of a SHA-256 digest. -/
def Host.hexDigest (bs : Bytes) : Bytes := hexEncode (H.sha256 bs).toList

@[simp] theorem length_hexEncode (bs : Bytes) :
    (hexEncode bs).length = 2 * bs.length := by
  induction bs with
  | nil => rfl
  | cons b bs ih =>
    show (hexEncode bs).length + 2 = 2 * (bs.length + 1)
    rw [ih, Nat.mul_succ]

theorem Host.hexDigest_ne_nil (bs : Bytes) : H.hexDigest bs ≠ [] := by
  intro h
  have hlen := congrArg List.length h
  rw [Host.hexDigest, length_hexEncode, Vector.length_toList] at hlen
  exact absurd hlen (by decide)

-- ==== protocol

def defaultChainID : Bytes := utf8 "zephyr-devnet-1"
def transactionDomain : Bytes := utf8 "zephyr/transaction/v1"
def blockDomain : Bytes := utf8 "zephyr/block/v1"
def consensusProposalDomain : Bytes := utf8 "zephyr/consensus/proposal/v1"
def consensusVoteDomain : Bytes := utf8 "zephyr/consensus/vote/v1"
def stateDomain : Bytes := utf8 "zephyr/state/v1"
def snapshotDomain : Bytes := utf8 "zephyr/snapshot/v1"

def configuredChainID (chainID : Bytes) : Bytes :=
  if trimSpace chainID = [] then defaultChainID else trimSpace chainID

/-- A character a chain identifier may hold. -/
def chainIDRune (r : Nat) : Bool :=
  H.isLetterOrDigit r || r == 45 || r == 95 || r == 46

def validateChainID (chainID : Bytes) : Except Error Unit := do
  refuse (trimSpace chainID = [] ∨ 64 < (trimSpace chainID).length)
    .protocolChainID
  refuse (¬ (H.runes (trimSpace chainID)).all (chainIDRune H))
    .protocolChainID

-- ==== keys

def deriveAddressFromPublicKey (encodedPublicKey : Bytes) :
    Except Error Bytes := do
  let publicKeyBytes ← require (H.base64Decode encodedPublicKey)
    .txInvalidPublicKey
  refuse (¬ H.isP256Key publicKeyBytes) .txInvalidPublicKey
  return utf8 "zph_" ++ (H.hexDigest publicKeyBytes).take 40

def decodeSignature (encodedSignature : Bytes) : Except Error (Nat × Nat) := do
  let signatureBytes ← require (H.base64Decode encodedSignature)
    .txInvalidSignature
  refuse (signatureBytes.length ≠ 64) .txInvalidSignature
  let r := ofBe (signatureBytes.take 32)
  let s := ofBe (signatureBytes.drop 32)
  refuse (r = 0 ∨ s = 0 ∨ p256Order ≤ r ∨ p256Order ≤ s) .txInvalidSignature
  return (r, s)

def verifySignature (encodedPublicKey payload encodedSignature : Bytes) :
    Except Error Unit := do
  let publicKeyBytes ← require (H.base64Decode encodedPublicKey)
    .txInvalidPublicKey
  refuse (¬ H.isP256Key publicKeyBytes) .txInvalidPublicKey
  let rs ← decodeSignature H encodedSignature
  refuse (p256Order / 2 < rs.2) .txNonCanonicalSignature
  refuse (¬ H.ecdsaVerify publicKeyBytes (H.sha256 payload) rs.1 rs.2)
    .txInvalidSignature

-- ==== transactions

def Envelope.canonicalPayload (e : Envelope) : Bytes :=
  H.marshalPayload
    { amount := e.amount
      chainID := trimSpace e.chainID
      domain := trimSpace e.domain
      fromAddress := e.fromAddress
      memo := e.memo
      nonce := e.nonce
      toAddress := e.toAddress }

def Envelope.identity (e : Envelope) : CanonicalIdentity where
  amount := e.amount
  chainID := trimSpace e.chainID
  domain := trimSpace e.domain
  fromAddress := e.fromAddress
  memo := e.memo
  nonce := e.nonce
  publicKey := e.publicKey
  toAddress := e.toAddress

/-- `tx.ID`. -/
def txID (e : Envelope) : Bytes := H.hexDigest (H.marshalIdentity e.identity)

def Envelope.validateStatic (e : Envelope) : Except Error Unit := do
  refuse (trimSpace e.chainID = [] ∨ trimSpace e.domain = [] ∨
    e.fromAddress = [] ∨ e.toAddress = [] ∨ e.payload = [] ∨
    e.publicKey = [] ∨ e.signature = []) .txMissingFields
  failWith .txInvalidChainID (validateChainID H (trimSpace e.chainID))
  refuse (trimSpace e.domain ≠ transactionDomain) .txInvalidDomain
  refuse (e.amount = 0) .txInvalidAmount
  let address ← deriveAddressFromPublicKey H e.publicKey
  refuse (address ≠ e.fromAddress) .txInvalidAddress
  refuse (e.payload ≠ e.canonicalPayload H) .txInvalidPayload
  verifySignature H e.publicKey e.payload e.signature

def Envelope.validateForChain (e : Envelope) (expectedChainID : Bytes) :
    Except Error Unit := do
  e.validateStatic H
  failWith .txInvalidChainID (validateChainID H (trimSpace expectedChainID))
  refuse (trimSpace e.chainID ≠ trimSpace expectedChainID) .txInvalidChainID

-- ==== proposals

def blockHashOf (chainID : Bytes) (height : Nat) (previousHash : Bytes)
    (producedAt : Time) (stateRoot : Bytes) (transactionIDs : List Bytes) :
    Bytes :=
  H.hexDigest (H.marshalBlock
    { chainID := trimSpace chainID
      domain := blockDomain
      height := height
      previousHash := previousHash
      producedAt := H.formatTime producedAt
      stateRoot := stateRoot
      transactionIDs := transactionIDs })

def Proposal.canonicalPayload (p : Proposal) : Bytes :=
  H.marshalProposal
    { blockHash := p.blockHash
      chainID := trimSpace p.chainID
      domain := trimSpace p.domain
      height := p.height
      previousHash := p.previousHash
      producedAt := H.formatTime p.producedAt
      proposer := p.proposer
      round := p.round
      stateRoot := p.stateRoot
      transactionIDs := p.transactionIDs }

def Proposal.candidateHash (p : Proposal) : Bytes :=
  blockHashOf H p.chainID p.height p.previousHash p.producedAt p.stateRoot
    p.transactionIDs

def validateHash (value : Bytes) (allowEmpty : Bool) : Except Error Unit :=
  if trimSpace value = [] then refuse (¬ allowEmpty) .invalidHash
  else
    refuse ((trimSpace value).length ≠ 64 ∨
      ¬ (trimSpace value).all isHexDigit) .invalidHash

/-- The loop of `validateTransactionIDs`; `seen` holds the identifiers it
has passed. -/
def validateTransactionIDsFrom (seen : List Bytes) :
    List Bytes → Except Error Unit
  | [] => .ok ()
  | id :: ids => do
      failWith .invalidTransactionID (validateHash id false)
      refuse (id ∈ seen) .invalidTransactionID
      validateTransactionIDsFrom (id :: seen) ids

def validateTransactionIDs (transactionIDs : List Bytes) :
    Except Error Unit :=
  validateTransactionIDsFrom [] transactionIDs

def validateProposalTransactions (chainID : Bytes)
    (transactionIDs : List Bytes) (transactions : List Envelope) :
    Except Error Unit := do
  refuse (transactions.length = 0) .missingTransactions
  refuse (transactions.length ≠ transactionIDs.length) .transactionMismatch
  forM (transactions.zip transactionIDs) fun entry => do
    failWith .invalidProposalTransaction (entry.1.validateForChain H chainID)
    refuse (txID H entry.1 ≠ entry.2) .transactionMismatch

/-- How the consensus package reports an error of the transaction
package's key and signature checks. -/
def asConsensus : Error → Error
  | .txInvalidPublicKey => .invalidPublicKey
  | .txInvalidSignature => .invalidSignature
  | .txNonCanonicalSignature => .invalidSignature
  | e => e

def Proposal.validateStatic (p : Proposal) : Except Error Unit := do
  refuse (trimSpace p.chainID = [] ∨ trimSpace p.domain = [] ∨
    p.blockHash = [] ∨ p.stateRoot = [] ∨ p.proposer = [] ∨
    p.payload = [] ∨ p.publicKey = [] ∨ p.signature = [] ∨
    p.transactionIDs.length = 0) .missingFields
  failWith .invalidChainID (validateChainID H (trimSpace p.chainID))
  refuse (trimSpace p.domain ≠ consensusProposalDomain) .invalidDomain
  refuse (p.height = 0) .invalidHeight
  refuse (p.producedAt = 0) .invalidProducedAt
  validateHash p.blockHash false
  failWith .invalidProposalStateRoot (validateHash p.stateRoot false)
  validateHash p.previousHash true
  validateTransactionIDs p.transactionIDs
  validateProposalTransactions H (trimSpace p.chainID) p.transactionIDs
    p.transactions
  refuse (p.blockHash ≠ p.candidateHash H) .hashMismatch
  let address ← (deriveAddressFromPublicKey H p.publicKey).mapError asConsensus
  refuse (address ≠ p.proposer) .invalidAddress
  refuse (p.payload ≠ p.canonicalPayload H) .invalidPayload
  (verifySignature H p.publicKey p.payload p.signature).mapError asConsensus

def Proposal.validateForChain (p : Proposal) (expectedChainID : Bytes) :
    Except Error Unit := do
  p.validateStatic H
  failWith .invalidChainID (validateChainID H (trimSpace expectedChainID))
  refuse (trimSpace p.chainID ≠ trimSpace expectedChainID) .invalidChainID

-- ==== votes

def Vote.canonicalPayload (v : Vote) : Bytes :=
  H.marshalVote
    { blockHash := v.blockHash
      chainID := trimSpace v.chainID
      domain := trimSpace v.domain
      height := v.height
      round := v.round
      voter := v.voter }

def Vote.validateStatic (v : Vote) : Except Error Unit := do
  refuse (trimSpace v.chainID = [] ∨ trimSpace v.domain = [] ∨
    v.blockHash = [] ∨ v.voter = [] ∨ v.payload = [] ∨
    v.publicKey = [] ∨ v.signature = []) .missingFields
  failWith .invalidChainID (validateChainID H (trimSpace v.chainID))
  refuse (trimSpace v.domain ≠ consensusVoteDomain) .invalidDomain
  refuse (v.height = 0) .invalidHeight
  validateHash v.blockHash false
  let address ← (deriveAddressFromPublicKey H v.publicKey).mapError asConsensus
  refuse (address ≠ v.voter) .invalidAddress
  refuse (v.payload ≠ v.canonicalPayload H) .invalidPayload
  (verifySignature H v.publicKey v.payload v.signature).mapError asConsensus

def Vote.validateForChain (v : Vote) (expectedChainID : Bytes) :
    Except Error Unit := do
  v.validateStatic H
  failWith .invalidChainID (validateChainID H (trimSpace expectedChainID))
  refuse (trimSpace v.chainID ≠ trimSpace expectedChainID) .invalidChainID

end ZephyrChain.Ledger
