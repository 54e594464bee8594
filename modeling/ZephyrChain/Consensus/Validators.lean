/-
Validator sets and quorum certificates (`internal/v2/consensus`:
consensus.go, validator_root.go, wire.go): who may vote, what a vote
signs, and when the votes for a header are enough.

A certificate lists the votes themselves. `verifyCertificate` checks
every signature and adds up the powers of the voters; a voter counts
once. The header hash of a certificate is taken over the header without
its certificate field, so it is the same before and after the header is
finalized.

The lists are sorted by id before they are hashed. The ids of a valid
set are distinct, and so are the voters of a valid certificate, which
leaves one sorted order.
-/
import ZephyrChain.Sharding
import ZephyrChain.Tx

namespace ZephyrChain.Consensus

open Lib

structure Validator where
  id : ValidatorID
  publicKey : Bytes
  power : UInt64
  deriving DecidableEq

structure ValidatorSet where
  network : NetworkID
  validators : List Validator
  deriving DecidableEq

structure Proposal where
  header : GlobalHeader
  round : UInt64
  proposer : ValidatorID
  publicKey : Bytes
  signature : Bytes
  deriving DecidableEq

structure Vote where
  network : NetworkID
  height : UInt64
  round : UInt64
  headerHash : Hash
  voter : ValidatorID
  publicKey : Bytes
  signature : Bytes
  deriving DecidableEq

structure Certificate where
  network : NetworkID
  height : UInt64
  round : UInt64
  headerHash : Hash
  votes : List Vote
  deriving DecidableEq

variable (C : Crypto)

-- ==== validator sets

/-- What the loop over the validators has seen, and their power. -/
structure Tally where
  seen : Finset ValidatorID
  total : UInt64

/-- One validator of a set: a P-256 key with its id, not met before, and
a power that still fits. -/
def validatorStep (s : Tally) (v : Validator) : Except Error Tally := do
  refuse (v.power = 0 ∨ v.publicKey.length ≠ 65 ∨
    validatorIDFromPublicKey C v.publicKey ≠ v.id) .validatorSet
  refuse (C.onCurve v.publicKey = false) .validatorSet
  refuse (v.id ∈ s.seen) .validatorSet
  refuse (Overflows s.total v.power) .validatorSet
  return ⟨insert v.id s.seen, s.total + v.power⟩

/-- `for range validators { total += power }`. -/
def addPowers (validators : List Validator) : UInt64 :=
  validators.foldl (fun total v => total + v.power) 0

/-- The power a certificate needs, more than two thirds of the total. -/
def quorumPower (total : UInt64) : UInt64 :=
  if total = 0 then 0
  else total / 3 * 2 + total % 3 * 2 / 3 + 1

namespace ValidatorSet

variable (s : ValidatorSet)

def validate : Except Error Unit := do
  refuse (IsZero32 s.network ∨ s.validators = []) .validatorSet
  let _ ← s.validators.foldlM (validatorStep C) ⟨∅, 0⟩
  return ()

def totalPower : Except Error UInt64 := do
  s.validate C
  return addPowers s.validators

/-- The validators in the order of their ids. -/
def sorted : List Validator :=
  s.validators.insertionSort fun v w => v.id.Before w.id

/-- The member a slot of the schedule falls on: the first one whose
cumulative power exceeds the slot. -/
def slotOwner (slot : UInt64) : UInt64 → List Validator → Option Validator
  | _, [] => none
  | cumulative, v :: rest =>
    if slot < cumulative + v.power then some v
    else slotOwner slot (cumulative + v.power) rest

def proposer (height round : UInt64) : Except Error Validator := do
  let total ← failWith .validatorSet (s.totalPower C)
  refuse (height = 0) .validatorSet
  let slot := ((height - 1) % total + round % total) % total
  require (slotOwner slot 0 s.sorted) .validatorSet

/-- The leaf of one validator. -/
def leaf (v : Validator) : Hash :=
  Merkle.leaf C "validator"
    (Writer.fixed v.id ++ Writer.bytes v.publicKey ++ Writer.u64 v.power)

/-- `Root`: the commitment to identities, keys and powers. -/
def root : Except Error Hash := do
  s.validate C
  return Merkle.root C (s.sorted.map (leaf C))

/-- `validator`: the member with an id. -/
def member (id : ValidatorID) : Option Validator :=
  s.validators.find? fun v => v.id = id

end ValidatorSet

-- ==== signing

/-- The hash of a header without its certificate. -/
def headerConsensusHash (header : GlobalHeader) : Hash :=
  domainHash C "zephyr/global-header-consensus/v2"
    { header with certificateHash := Bytes32.zero }.canonicalBytes

def Proposal.signingDigest (p : Proposal) : Hash :=
  domainHash C "zephyr/consensus/proposal/v2"
    (Writer.fixed (headerConsensusHash C p.header) ++ Writer.u64 p.round ++
      Writer.fixed p.proposer)

def Vote.signingDigest (v : Vote) : Hash :=
  domainHash C "zephyr/consensus/vote/v2"
    (Writer.fixed v.network ++ Writer.u64 v.height ++ Writer.u64 v.round ++
      Writer.fixed v.headerHash ++ Writer.fixed v.voter)

/-- A 64-byte signature in low-S form that verifies under the key. -/
def verifyDigest (publicKey : Bytes) (digest : Hash) (signature : Bytes) :
    Except Error Unit := do
  refuse (publicKey.length ≠ 65 ∨ signature.length ≠ 64) .vote
  refuse (C.onCurve publicKey = false) .vote
  let r := ofBe (signature.take 32)
  let s := ofBe (signature.drop 32)
  refuse (r = 0 ∨ s = 0 ∨ p256Order ≤ r ∨ p256Order ≤ s ∨
    p256Order / 2 < s) .vote
  refuse (C.ecdsaVerify publicKey digest r s = false) .vote

namespace ValidatorSet

variable (s : ValidatorSet)

def verifyProposal (p : Proposal) : Except Error Unit := do
  failWith .proposal (s.validate C)
  refuse (p.header.network ≠ s.network ∨ p.header.height = 0 ∨
    p.header.certificateHash ≠ Bytes32.zero) .proposal
  let validatorRoot ← failWith .proposal (s.root C)
  refuse (validatorRoot ≠ p.header.validatorRoot) .proposal
  let expected ← failWith .proposal (s.proposer C p.header.height p.round)
  refuse (expected.id ≠ p.proposer ∨ expected.publicKey ≠ p.publicKey)
    .proposal
  refuse (validatorIDFromPublicKey C p.publicKey ≠ p.proposer) .proposal
  failWith .proposal (verifyDigest C p.publicKey (p.signingDigest C)
    p.signature)

def verifyVote (v : Vote) : Except Error Unit := do
  refuse (v.network ≠ s.network ∨ v.height = 0 ∨ IsZero32 v.headerHash ∨
    validatorIDFromPublicKey C v.publicKey ≠ v.voter) .vote
  let validator ← require (s.member v.voter) .vote
  refuse (validator.publicKey ≠ v.publicKey) .vote
  failWith .vote (verifyDigest C v.publicKey (v.signingDigest C) v.signature)

/-- One vote of a certificate: for its header, by a member that has not
voted yet, with a signature that verifies. -/
def voteStep (c : Certificate) (t : Tally) (v : Vote) :
    Except Error Tally := do
  refuse (v.network ≠ c.network ∨ v.height ≠ c.height ∨ v.round ≠ c.round ∨
    v.headerHash ≠ c.headerHash) .certificate
  refuse (v.voter ∈ t.seen) .certificate
  let validator ← require (s.member v.voter) .certificate
  refuse (validatorIDFromPublicKey C v.publicKey ≠ v.voter ∨
    validator.publicKey ≠ v.publicKey) .certificate
  failWith .certificate
    (verifyDigest C v.publicKey (v.signingDigest C) v.signature)
  return ⟨insert v.voter t.seen, t.total + validator.power⟩

def verifyCertificate (c : Certificate) : Except Error Unit := do
  failWith .certificate (s.validate C)
  refuse (c.network ≠ s.network ∨ c.height = 0 ∨ IsZero32 c.headerHash)
    .certificate
  let tally ← c.votes.foldlM (voteStep C s c) ⟨∅, 0⟩
  refuse (tally.total < quorumPower (addPowers s.validators))
    .insufficientPower

def buildCertificate (p : Proposal) (votes : List Vote) :
    Except Error Certificate := do
  s.verifyProposal C p
  let certificate : Certificate :=
    ⟨s.network, p.header.height, p.round, headerConsensusHash C p.header,
      votes⟩
  s.verifyCertificate C certificate
  return certificate

end ValidatorSet

/-- `Certificate.Hash`. -/
def Certificate.hash (c : Certificate) : Hash :=
  let votes := c.votes.insertionSort fun v w => v.voter.Before w.voter
  domainHash C "zephyr/quorum-certificate/v2"
    (Writer.fixed c.network ++ Writer.u64 c.height ++ Writer.u64 c.round ++
      Writer.fixed c.headerHash ++
      Writer.u32 (UInt32.ofNat votes.length) ++
      votes.flatMap fun v => Writer.fixed v.voter ++
        Writer.bytes v.publicKey ++ Writer.bytes v.signature)

-- ==== wire

def maxCertificateVotes : Nat := 4096

namespace Vote

/-- The bytes of `MarshalBinary` once the checks pass. -/
def encode (v : Vote) : Bytes :=
  Writer.fixed v.network ++ Writer.u64 v.height ++ Writer.u64 v.round ++
    Writer.fixed v.headerHash ++ Writer.fixed v.voter ++
    Writer.bytes v.publicKey ++ Writer.bytes v.signature

def marshalBinary (v : Vote) : Except Error Bytes := do
  refuse (v.publicKey.length ≠ 65 ∨ v.signature.length ≠ 64 ∨
    v.height = 0 ∨ IsZero32 v.network ∨ IsZero32 v.headerHash ∨
    IsZero32 v.voter) .vote
  return v.encode

def read : Reader Vote := do
  let network ← Reader.fixed
  let height ← Reader.u64
  liftM (refuse (height = 0) Error.vote)
  let round ← Reader.u64
  let headerHash ← Reader.fixed
  let voter ← Reader.fixed
  let publicKey ← Reader.bytes 65
  liftM (refuse (publicKey.length ≠ 65) Error.vote)
  let signature ← Reader.bytes 64
  liftM (refuse (signature.length ≠ 64) Error.vote)
  return ⟨network, height, round, headerHash, voter, publicKey, signature⟩

end Vote

def parseVote (data : Bytes) : Except Error Vote := do
  let v ← parseWith .vote Vote.read data
  refuse (IsZero32 v.network ∨ IsZero32 v.headerHash ∨ IsZero32 v.voter)
    .vote
  return v

namespace Certificate

def marshalBinary (c : Certificate) : Except Error Bytes := do
  refuse (c.votes = [] ∨ maxCertificateVotes < c.votes.length ∨
    c.height = 0 ∨ IsZero32 c.network ∨ IsZero32 c.headerHash) .certificate
  let votes ← c.votes.mapM Vote.marshalBinary
  return Writer.fixed c.network ++ Writer.u64 c.height ++
    Writer.u64 c.round ++ Writer.fixed c.headerHash ++
    Writer.u32 (UInt32.ofNat c.votes.length) ++ votes.flatMap Writer.bytes

def read : Reader Certificate := do
  let network ← Reader.fixed
  let height ← Reader.u64
  liftM (refuse (height = 0) Error.certificate)
  let round ← Reader.u64
  let headerHash ← Reader.fixed
  let count ← Reader.u32
  liftM (refuse (count = 0 ∨ maxCertificateVotes < count.toNat)
    Error.certificate)
  let votes ← readMany (do
    let raw ← Reader.bytes 512
    liftM (parseVote raw)) count.toNat
  return ⟨network, height, round, headerHash, votes⟩

end Certificate

def parseCertificate (data : Bytes) : Except Error Certificate := do
  let c ← parseNested .certificate Certificate.read data
  refuse (IsZero32 c.network ∨ IsZero32 c.headerHash) .certificate
  return c

end ZephyrChain.Consensus
