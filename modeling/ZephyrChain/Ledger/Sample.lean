/-
A small host on which the account ledger can be run: keys and signatures
are taken as they come, a digest is the first 32 bytes of what is hashed,
and the encodings keep the fields in which the records of a short run
differ. The constructors below build signed transactions on it.
-/
import ZephyrChain.Ledger.Store

namespace ZephyrChain.Ledger

/-- The start of an address behind its common head. -/
def shortAddress (address : Bytes) : Bytes := (address.drop 4).take 2

/-- One byte for a small number. -/
def shortNat (n : Nat) : UInt8 := UInt8.ofNat n

def sampleHost : Host where
  sha256 := Bytes32.copy32
  base64Decode := some
  isP256Key := fun _ => true
  ecdsaVerify := fun _ _ _ _ => true
  runes := fun bs => bs.map UInt8.toNat
  isLetterOrDigit := fun r => 97 ≤ r && r ≤ 122
  formatTime := fun t => [shortNat t.toNat]
  marshalPayload := fun p =>
    [shortNat p.amount.toNat, shortNat p.nonce.toNat] ++
      shortAddress p.fromAddress ++ shortAddress p.toAddress ++ p.memo
  marshalIdentity := fun p =>
    [shortNat p.amount.toNat, shortNat p.nonce.toNat] ++
      shortAddress p.fromAddress ++ shortAddress p.toAddress ++ p.memo
  marshalProposal := fun p =>
    [1, shortNat p.height, shortNat p.round.toNat] ++
      shortAddress p.proposer ++ p.blockHash.take 12
  marshalVote := fun v =>
    [2, shortNat v.height, shortNat v.round.toNat] ++
      shortAddress v.voter ++ v.blockHash.take 12
  marshalBlock := fun b =>
    [3, shortNat b.height] ++ b.producedAt ++
      b.transactionIDs.flatMap (·.take 4) ++ b.stateRoot.take 12
  marshalSnapshotProof := fun p =>
    [4, shortNat p.height] ++ shortAddress p.signer ++ p.blockHash.take 12
  marshalState := fun p =>
    [5, shortNat p.validatorSetVersion.toNat] ++ p.accounts.flatMap fun a =>
      [shortNat a.balance.toNat, shortNat a.nonce.toNat]

def sampleChain : Bytes := utf8 "sample"

/-- The address of the key with one byte. -/
def sampleAddress (key : UInt8) : Bytes :=
  utf8 "zph_" ++ (sampleHost.hexDigest [key]).take 40

/-- Sixty-four bytes that have the form of a signature. -/
def sampleSignature : Bytes := List.replicate 64 1

/-- A transaction without its payload. -/
def unsignedEnvelope (sender receiver : UInt8) (amount nonce : UInt64) :
    Envelope where
  chainID := sampleChain
  domain := transactionDomain
  fromAddress := sampleAddress sender
  toAddress := sampleAddress receiver
  amount := amount
  nonce := nonce
  memo := []
  payload := []
  publicKey := [sender]
  signature := sampleSignature

def sampleEnvelope (sender receiver : UInt8) (amount nonce : UInt64) :
    Envelope :=
  { unsignedEnvelope sender receiver amount nonce with
    payload :=
      (unsignedEnvelope sender receiver amount nonce).canonicalPayload
        sampleHost }

-- ==== messages

/-- A proposal of a block without its payload. -/
def unsignedProposal (proposer : UInt8) (round : UInt64) (b : Block) :
    Proposal where
  chainID := sampleChain
  domain := consensusProposalDomain
  height := b.height
  round := round
  blockHash := b.hash
  previousHash := b.previousHash
  stateRoot := b.stateRoot
  producedAt := b.producedAt
  transactionIDs := b.transactionIDs
  transactions := b.transactions
  proposer := sampleAddress proposer
  payload := []
  publicKey := [proposer]
  signature := sampleSignature
  proposedAt := 4

def sampleProposal (proposer : UInt8) (round : UInt64) (b : Block) :
    Proposal :=
  { unsignedProposal proposer round b with
    payload := (unsignedProposal proposer round b).canonicalPayload sampleHost }

/-- A vote for a block without its payload. -/
def unsignedVote (voter : UInt8) (round : UInt64) (b : Block) : Vote where
  chainID := sampleChain
  domain := consensusVoteDomain
  height := b.height
  round := round
  blockHash := b.hash
  voter := sampleAddress voter
  payload := []
  publicKey := [voter]
  signature := sampleSignature
  votedAt := 4

def sampleVote (voter : UInt8) (round : UInt64) (b : Block) : Vote :=
  { unsignedVote voter round b with
    payload := (unsignedVote voter round b).canonicalPayload sampleHost }

-- ==== runs

/-- A store opened on an empty directory, after some calls that can
write. -/
def sampleRun (ops : List Operation) : Node :=
  ops.foldl (fun n op => (n.call sampleHost id (.operation op 4 true)).1)
    ⟨emptyState sampleChain, emptyState sampleChain⟩

/-- The next block of a store, empty if there is none. -/
def sampleBlock (n : Node) : Block :=
  ((buildNextBlock sampleHost n.store 0 5 5).toOption).getD
    (sealedBlock sampleHost sampleChain 0 [] [] 0 [] [])

end ZephyrChain.Ledger
