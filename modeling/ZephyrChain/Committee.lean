/-
Committee selection by a verifiable random function
(`internal/v2/committee`): the input a proof is bound to, the root of the
candidate set, the unweighted selection, and the schedules of a
producer's keys.

The proof itself is checked by `internal/v2/vrf`, which is not modelled:
`SelectUnweighted` is given a `VerifiedProof` and looks at its fields.
Whether 33 bytes are a compressed point of P-256 is the parameter
`compressed`.
-/
import ZephyrChain.Types
import Mathlib.Data.List.Sort
import Mathlib.Data.Prod.Lex

namespace ZephyrChain.Committee

open Lib

def version : UInt16 := 1

abbrev CandidateID := Bytes32

abbrev PublicKey := Vector UInt8 33

structure Input where
  network : NetworkID
  finalizedHeight : UInt64
  finalizedHeaderHash : Hash
  eligibilityRoot : Hash
  vrfKeyHash : Hash
  purpose : Hash
  round : UInt64
  committeeSize : UInt32
  deriving DecidableEq

namespace Input

def validate (i : Input) : Except Error Unit :=
  refuse (IsZero32 i.network ∨ i.finalizedHeight = 0 ∨
    IsZero32 i.finalizedHeaderHash ∨ IsZero32 i.eligibilityRoot ∨
    IsZero32 i.vrfKeyHash ∨ IsZero32 i.purpose ∨ i.committeeSize = 0)
    .committee

def marshalBinary (i : Input) : Except Error Bytes := do
  i.validate
  return Writer.u16 version ++ Writer.fixed i.network ++
    Writer.u64 i.finalizedHeight ++ Writer.fixed i.finalizedHeaderHash ++
    Writer.fixed i.eligibilityRoot ++ Writer.fixed i.vrfKeyHash ++
    Writer.fixed i.purpose ++ Writer.u64 i.round ++
    Writer.u32 i.committeeSize

def hash (C : Crypto) (i : Input) : Except Error Hash := do
  let raw ← i.marshalBinary
  return domainHash C "zephyr/committee/vrf-input/v1" raw

end Input

def vrfPublicKeyHash (C : Crypto) (key : PublicKey) : Hash :=
  domainHash C "zephyr/committee/vrf-key/v1" key.toList

-- ==== candidates

def sortCandidates (candidates : List CandidateID) : List CandidateID :=
  candidates.insertionSort Bytes32.Before

/-- What the root of a sorted candidate list commits to. -/
def eligibilityPayload (ordered : List CandidateID) : Bytes :=
  Writer.u32 (UInt32.ofNat ordered.length) ++ ordered.flatMap Writer.fixed

def eligibilityRoot (C : Crypto) (candidates : List CandidateID) :
    Except Error Hash := do
  refuse (candidates = [] ∨ 2 ^ 32 - 1 < candidates.length) .committee
  let ordered := sortCandidates candidates
  -- the loop compares each candidate with the one in front of it
  refuse ((∃ c ∈ ordered, IsZero32 c) ∨ ¬ ordered.IsChain (· ≠ ·))
    .committee
  return domainHash C "zephyr/committee/eligibility/v1"
    (eligibilityPayload ordered)

/-- What `VerifyProof` returns. -/
structure VerifiedProof where
  inputHash : Hash
  publicKeyHash : Hash
  proofHash : Hash
  output : Bytes32
  valid : Bool
  deriving DecidableEq

def rankOf (C : Crypto) (inputHash : Hash) (output : Bytes32)
    (candidate : CandidateID) : Hash :=
  domainHash C "zephyr/committee/unweighted-rank/v1"
    (Writer.fixed inputHash ++ Writer.fixed output ++ Writer.fixed candidate)

structure RankedCandidate where
  id : CandidateID
  rank : Hash

/-- Candidates are sorted by rank, then by id. -/
def RankedCandidate.key (r : RankedCandidate) : Nat ×ₗ Nat :=
  toLex (r.rank.toNat, r.id.toNat)

/-- The candidates in the order of their ranks. -/
def ranking (C : Crypto) (inputHash : Hash) (output : Bytes32)
    (candidates : List CandidateID) : List CandidateID :=
  ((candidates.map fun c => (⟨c, rankOf C inputHash output c⟩ :
    RankedCandidate)).insertionSort fun a b => a.key ≤ b.key).map
      RankedCandidate.id

def selectUnweighted (C : Crypto) (input : Input) (verified : VerifiedProof)
    (candidates : List CandidateID) : Except Error (List CandidateID) := do
  refuse (verified.valid = false) .committee
  let inputHash ← failWith .committee (input.hash C)
  refuse (inputHash ≠ verified.inputHash ∨
    input.vrfKeyHash ≠ verified.publicKeyHash) .committee
  let root ← failWith .committee (eligibilityRoot C candidates)
  refuse (root ≠ input.eligibilityRoot ∨
    candidates.length < input.committeeSize.toNat) .committee
  return (ranking C inputHash verified.output candidates).take
    input.committeeSize.toNat

-- ==== key schedules

structure VRFKeyEpoch where
  network : NetworkID
  producer : AccountID
  publicKey : PublicKey
  sequence : UInt64
  registrationHeight : UInt64
  activeFromHeight : UInt64
  /-- Zero means open-ended. -/
  inactiveFromHeight : UInt64
  previousEpochHash : Hash
  deriving DecidableEq

section Schedule

variable (C : Crypto) (compressed : PublicKey → Bool)

namespace VRFKeyEpoch

def validate (e : VRFKeyEpoch) : Except Error Unit := do
  refuse (IsZero32 e.network ∨ IsZero32 e.producer ∨ e.sequence = 0 ∨
    e.registrationHeight = 0 ∨ e.activeFromHeight ≤ e.registrationHeight ∨
    (e.inactiveFromHeight ≠ 0 ∧
      e.inactiveFromHeight ≤ e.activeFromHeight)) .committee
  refuse (¬ (e.sequence = 1 ↔ IsZero32 e.previousEpochHash)) .committee
  refuse (compressed e.publicKey = false) .committee

def encode (e : VRFKeyEpoch) : Bytes :=
  Writer.u16 version ++ Writer.fixed e.network ++ Writer.fixed e.producer ++
    e.publicKey.toList ++ Writer.u64 e.sequence ++
    Writer.u64 e.registrationHeight ++ Writer.u64 e.activeFromHeight ++
    Writer.u64 e.inactiveFromHeight ++ Writer.fixed e.previousEpochHash

def canonicalBytes (e : VRFKeyEpoch) : Except Error Bytes := do
  e.validate compressed
  return e.encode

def hash (e : VRFKeyEpoch) : Except Error Hash := do
  let raw ← failWith .committee (e.canonicalBytes compressed)
  return domainHash C "zephyr/committee/vrf-key-epoch/v1" raw

/-- The epoch's interval holds the height. -/
def ActiveAt (e : VRFKeyEpoch) (height : UInt64) : Prop :=
  e.activeFromHeight ≤ height ∧
    (e.inactiveFromHeight = 0 ∨ height < e.inactiveFromHeight)

instance (e : VRFKeyEpoch) (height : UInt64) : Decidable (e.ActiveAt height) :=
  inferInstanceAs (Decidable (_ ∧ _))

end VRFKeyEpoch

/-- How an epoch must continue the one before it. -/
def checkPrior (epoch : VRFKeyEpoch) : Option VRFKeyEpoch →
    Except Error Unit
  | none => .ok ()
  | some prior => do
      let priorHash ← prior.hash C compressed
      refuse (epoch.previousEpochHash ≠ priorHash ∨
        epoch.registrationHeight ≤ prior.registrationHeight ∨
        epoch.activeFromHeight ≤ prior.activeFromHeight ∨
        prior.inactiveFromHeight = 0 ∨
        epoch.activeFromHeight < prior.inactiveFromHeight) .committee

/-- The loop over the sorted epochs, with the index, the epoch before and
the keys seen so far. -/
def checkEpochs (first : VRFKeyEpoch) (minLeadBlocks : UInt64) :
    List VRFKeyEpoch → Nat → Option VRFKeyEpoch → List PublicKey →
      Except Error Unit
  | [], _, _, _ => .ok ()
  | epoch :: epochs, i, prior, seen => do
      epoch.validate compressed
      refuse (epoch.network ≠ first.network ∨
        epoch.producer ≠ first.producer ∨
        epoch.activeFromHeight - epoch.registrationHeight < minLeadBlocks ∨
        epoch.sequence ≠ UInt64.ofNat i + 1) .committee
      refuse (epoch.publicKey ∈ seen) .committee
      checkPrior C compressed epoch prior
      checkEpochs first minLeadBlocks epochs (i + 1) (some epoch)
        (epoch.publicKey :: seen)

def sortEpochs (epochs : List VRFKeyEpoch) : List VRFKeyEpoch :=
  epochs.insertionSort fun a b => a.sequence ≤ b.sequence

def checkedVRFKeyEpochs (epochs : List VRFKeyEpoch)
    (minLeadBlocks : UInt64) : Except Error (List VRFKeyEpoch) := do
  refuse (minLeadBlocks = 0 ∨ epochs = [] ∨ 2 ^ 32 - 1 < epochs.length)
    .committee
  let ordered := sortEpochs epochs
  let first ← require ordered.head? .committee
  checkEpochs C compressed first minLeadBlocks ordered 0 none []
  return ordered

/-- What the commitment of a schedule is the hash of. -/
def schedulePayload (ordered : List VRFKeyEpoch) (minLeadBlocks : UInt64) :
    Bytes :=
  Writer.u16 version ++ Writer.u64 minLeadBlocks ++
    Writer.u32 (UInt32.ofNat ordered.length) ++
    ordered.flatMap fun e => Writer.bytes e.encode

def vrfKeyScheduleCommitment (epochs : List VRFKeyEpoch)
    (minLeadBlocks : UInt64) : Except Error Hash := do
  let ordered ← checkedVRFKeyEpochs C compressed epochs minLeadBlocks
  -- every epoch has passed `validate`, so its canonical bytes exist
  return domainHash C "zephyr/committee/vrf-key-schedule/v1"
    (schedulePayload ordered minLeadBlocks)

def checkVRFKeyScheduleAtInput (input : Input) (producer : AccountID)
    (epochs : List VRFKeyEpoch) (minLeadBlocks : UInt64) :
    Except Error VRFKeyEpoch := do
  input.validate
  refuse (IsZero32 producer) .committee
  let ordered ← checkedVRFKeyEpochs C compressed epochs minLeadBlocks
  let first ← require ordered.head? .committee
  refuse (first.network ≠ input.network ∨ first.producer ≠ producer)
    .committee
  refuse (∃ e ∈ ordered, input.finalizedHeight < e.registrationHeight)
    .committee
  -- the loop skips the epochs that are not active
  let epoch ← require (ordered.find? fun e =>
    decide (e.ActiveAt input.finalizedHeight)) .committee
  refuse (vrfPublicKeyHash C epoch.publicKey ≠ input.vrfKeyHash) .committee
  return epoch

end Schedule

end ZephyrChain.Committee
