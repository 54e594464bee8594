/-
A job on the chain (`internal/v2/compute`, state.go and onchain.go): the
record a job object holds, and the transitions of its life: assignments,
results, settlement by agreement or by majority, and expiry.

# Go maps

The amounts a settlement pays are a Go map from accounts. It is an
association list here, and `amounts[k] += v` adds in 64 bits, wrapping as
the source does.

# Records and their limit

`ParseOnChainJob` reads at most 1024 assignments and 1024 results, while
`MarshalBinary` writes any number. `OnChainJob.read` therefore takes the
limit as an argument; the protocol's parser is the instance at 1024.

`sort.Slice` orders records by the provider's hexadecimal string, which
is the order of the bytes.
-/
import ZephyrChain.Compute.Model
import ZephyrChain.Object
import Mathlib.Data.List.AList
import Mathlib.Data.List.Sort

namespace ZephyrChain

open Lib

-- ==== amounts

/-- A Go `map[types.AccountID]uint64`. -/
abbrev Amounts := AList fun _ : AccountID => UInt64

namespace Amounts

/-- `amounts[id]`, zero when there is no entry. -/
def get (amounts : Amounts) (id : AccountID) : UInt64 :=
  (amounts.lookup id).getD 0

/-- `amounts[id] += value`. -/
def add (amounts : Amounts) (id : AccountID) (value : UInt64) : Amounts :=
  amounts.insert id (amounts.get id + value)

end Amounts

-- ==== status

inductive JobStatus where
  | pending
  | assigned
  | awaitingVerification
  | settled
  | expired
  /-- A number no status is assigned to. -/
  | unassigned (number : UInt8) (h : number = 0 ∨ 5 < number)
  deriving DecidableEq

namespace JobStatus

def toUInt8 : JobStatus → UInt8
  | pending => 1
  | assigned => 2
  | awaitingVerification => 3
  | settled => 4
  | expired => 5
  | unassigned n _ => n

def ofUInt8 (n : UInt8) : JobStatus :=
  if n = 1 then pending
  else if n = 2 then assigned
  else if n = 3 then awaitingVerification
  else if n = 4 then settled
  else if n = 5 then expired
  else if h : n = 0 ∨ 5 < n then unassigned n h
  else pending

@[simp] theorem ofUInt8_toUInt8 (s : JobStatus) : ofUInt8 s.toUInt8 = s := by
  cases s with
  | unassigned n h =>
    have hne : ∀ k : UInt8, k ≠ 0 → k ≤ 5 → n ≠ k := by
      rintro k h0 h5 rfl
      rcases h with h | h
      · exact h0 h
      · exact absurd h (UInt8.not_lt.2 h5)
    show ofUInt8 n = unassigned n h
    unfold ofUInt8
    rw [if_neg (hne 1 (by decide) (by decide)),
      if_neg (hne 2 (by decide) (by decide)),
      if_neg (hne 3 (by decide) (by decide)),
      if_neg (hne 4 (by decide) (by decide)),
      if_neg (hne 5 (by decide) (by decide)), dif_pos h]
  | _ => decide

end JobStatus

-- ==== records

structure Assignment where
  offerID : Hash
  provider : AccountID
  price : UInt64
  deriving DecidableEq

namespace Assignment

def validate (a : Assignment) : Except Error Unit :=
  refuse (IsZero32 a.offerID ∨ IsZero32 a.provider ∨ a.price = 0)
    .marketState

def encode (a : Assignment) : Bytes :=
  Writer.fixed a.offerID ++ Writer.fixed a.provider ++ Writer.u64 a.price

def marshalBinary (a : Assignment) : Except Error Bytes := do
  a.validate
  return a.encode

def read : Reader Assignment := do
  let offerID ← Reader.fixed
  let provider ← Reader.fixed
  let price ← Reader.u64
  return ⟨offerID, provider, price⟩

end Assignment

def parseAssignment (data : Bytes) : Except Error Assignment := do
  let assignment ← parseWith .marketState Assignment.read data
  refuse (assignment.price = 0) .marketState
  let _ ← assignment.marshalBinary
  return assignment

structure OnChainJob where
  id : JobID
  job : Job
  escrow : UInt64
  status : JobStatus
  assignments : List Assignment
  results : List ComputeResult
  deriving DecidableEq

/-- A counted row of length-prefixed records, at most `limit` of them. -/
def Reader.records {α : Type} (limit : Nat)
    (parse : Bytes → Except Error α) : Reader (List α) := do
  let count ← Reader.u32
  liftM (refuse (limit < count.toNat) Error.marketState)
  readMany
    (do
      let raw ← Reader.bytes 1024
      liftM (parse raw))
    count.toNat

namespace OnChainJob

/-- The checks of `MarshalBinary`. -/
def validate (j : OnChainJob) : Except Error Unit := do
  refuse (IsZero32 j.id ∨ j.escrow < j.job.maxPrice ∨
    j.status.toUInt8 < 1 ∨ 5 < j.status.toUInt8) .marketState
  j.job.validate
  forM j.assignments Assignment.validate
  forM j.results ComputeResult.validate

def sortedAssignments (j : OnChainJob) : List Assignment :=
  j.assignments.insertionSort fun a b => Bytes32.Before a.provider b.provider

def sortedResults (j : OnChainJob) : List ComputeResult :=
  j.results.insertionSort fun a b => Bytes32.Before a.provider b.provider

def encode (j : OnChainJob) : Bytes :=
  Writer.fixed j.id ++ Writer.bytes j.job.encode ++ Writer.u64 j.escrow ++
    Writer.u8 j.status.toUInt8 ++
    Writer.u32 (UInt32.ofNat j.assignments.length) ++
    j.sortedAssignments.flatMap (fun a => Writer.bytes a.encode) ++
    Writer.u32 (UInt32.ofNat j.results.length) ++
    j.sortedResults.flatMap (fun r => Writer.bytes r.encode)

def marshalBinary (j : OnChainJob) : Except Error Bytes := do
  j.validate
  return j.encode

def read (limit : Nat) : Reader OnChainJob := do
  let id ← Reader.fixed
  let jobBytes ← Reader.bytes 1048576
  let job ← liftM (parseJob jobBytes)
  let escrow ← Reader.u64
  let status ← Reader.u8
  let assignments ← Reader.records limit parseAssignment
  let results ← Reader.records limit parseComputeResult
  return ⟨id, job, escrow, JobStatus.ofUInt8 status, assignments, results⟩

/-- Read a job record with at most `limit` assignments and results. -/
def parse (limit : Nat) (data : Bytes) : Except Error OnChainJob := do
  let record ← parseNested .marketState (read limit) data
  let _ ← record.marshalBinary
  return record

end OnChainJob

def parseOnChainJob (data : Bytes) : Except Error OnChainJob :=
  OnChainJob.parse 1024 data

-- ==== new objects

def computeOfferObjectIndex : UInt32 := 0x90000000

def computeJobObjectIndex : UInt32 := 0x90000001

def newOfferObject (C : Crypto) (txID : Hash) (shard : UInt32)
    (offer : Offer) : Except Error Object := do
  let raw ← offer.marshalBinary
  return ⟨objectIDForShard C txID computeOfferObjectIndex shard, 1,
    offer.provider, .computeOffer, raw⟩

def newJobObject (C : Crypto) (txID : Hash) (shard : UInt32) (job : Job)
    (escrow : UInt64) : Except Error (Object × OnChainJob) := do
  let record : OnChainJob :=
    ⟨jobIDFromTransaction C txID 0, job, escrow, .pending, [], []⟩
  let raw ← record.marshalBinary
  return (⟨objectIDForShard C txID computeJobObjectIndex shard, 1, job.owner,
    .computeJob, raw⟩, record)

-- ==== transitions

/-- `for … { if MaxUint64-acc < v { return e }; acc += v }`. -/
def sumChecked (e : Error) (values : List UInt64) : Except Error UInt64 :=
  values.foldlM (fun acc v => do refuse (Overflows acc v) e; return acc + v) 0

def assignOnChain (record : OnChainJob) (offerID : Hash) (offer : Offer)
    (height : UInt64) : Except Error (OnChainJob × Assignment × UInt64) := do
  refuse (record.status = .settled ∨ record.status = .expired ∨ height = 0 ∨
    record.job.deadlineHeight < height ∨ offer.validUntilHeight < height)
    .marketState
  refuse (offerMatchesJob offer record.job = false ∨
    offer.collateral < record.job.collateralRequired) .marketMatch
  refuse (∃ a ∈ record.assignments, a.provider = offer.provider)
    .marketDuplicate
  let target := record.job.requiredAssignments
  refuse (target ≤ record.assignments.length) .marketState
  let committed ← sumChecked .marketEscrow
    (record.assignments.map Assignment.price)
  refuse (record.job.maxPrice < offer.pricePerUnit ∨
    Overflows committed offer.pricePerUnit ∨
    record.job.maxPrice < committed + offer.pricePerUnit ∨
    record.escrow < committed + offer.pricePerUnit) .marketEscrow
  let assignment : Assignment := ⟨offerID, offer.provider, offer.pricePerUnit⟩
  let assignments := record.assignments ++ [assignment]
  let updated := { record with
    assignments
    status := if assignments.length = target then .assigned
      else record.status }
  return (updated, assignment,
    offer.collateral - record.job.collateralRequired)

def submitOnChainResult (record : OnChainJob) (result : ComputeResult) :
    Except Error OnChainJob := do
  failWith .invalidComputeResult result.validate
  refuse (result.jobID ≠ record.id) .invalidComputeResult
  refuse (record.status ≠ .assigned ∧ record.status ≠ .awaitingVerification)
    .marketState
  refuse (record.job.deadlineHeight < result.completedHeight) .marketState
  refuse (¬ ∃ a ∈ record.assignments, a.provider = result.provider)
    .marketMatch
  refuse (∃ r ∈ record.results, r.provider = result.provider)
    .marketDuplicate
  let results := record.results ++ [result]
  return { record with
    results
    status := if results.length = record.job.requiredAssignments
      then .awaitingVerification else record.status }

-- ==== settlement

structure VerificationEvidence where
  deterministicReplay : Bool
  proofVerified : Bool
  attestationVerified : Bool
  challengePassed : Bool
  clientApproved : Bool
  deriving DecidableEq

structure OnChainSettlement where
  jobID : JobID
  resultRoot : Hash
  payments : Amounts
  refund : UInt64
  collateralReturns : Amounts
  slashedCollateral : Amounts
  slashReward : UInt64

/-- The root of the first result in provider order, and whether all
results agree on it. -/
def commonResultRootRecord (results : List ComputeResult) : Hash × Bool :=
  match results.insertionSort fun a b =>
      Bytes32.Before a.provider b.provider with
  | [] => (Bytes32.zero, false)
  | first :: rest =>
    (first.resultRoot, rest.all fun r => r.resultRoot = first.resultRoot)

/-- `verificationSatisfied`, over the results with one entry for each
provider. -/
def verificationSatisfied (mode : VerificationMode) (replicatedMatch : Bool)
    (results : List ComputeResult) (evidence : VerificationEvidence) :
    Bool :=
  let hasProof := results.all fun r => r.proofHash ≠ Bytes32.zero
  let hasAttestation := results.all fun r => r.attestationHash ≠ Bytes32.zero
  match mode with
  | .deterministic => evidence.deterministicReplay
  | .replicated => replicatedMatch
  | .challenge => evidence.challengePassed
  | .zeroKnowledge => hasProof && evidence.proofVerified
  | .tee => hasAttestation && evidence.attestationVerified
  | .clientApproved => evidence.clientApproved
  | .hybrid =>
    2 ≤ [evidence.deterministicReplay,
      replicatedMatch && 1 < results.length,
      hasProof && evidence.proofVerified,
      hasAttestation && evidence.attestationVerified,
      evidence.challengePassed, evidence.clientApproved].countP id
  | .unknown | .unassigned _ _ => false

/-- `results[result.Provider] = result` for each result: the last one of
a provider stays. -/
def resultsByProvider (results : List ComputeResult) :
    AList fun _ : AccountID => ComputeResult :=
  results.foldl (fun m r => m.insert r.provider r) ∅

def finalizeOnChain (record : OnChainJob) (evidence : VerificationEvidence) :
    Except Error (OnChainJob × OnChainSettlement) := do
  refuse (record.status ≠ .awaitingVerification ∨
    record.results.length ≠ record.job.requiredAssignments) .marketState
  let results := (resultsByProvider record.results).entries.map Sigma.snd
  let common := commonResultRootRecord record.results
  refuse (IsZero32 common.1 ∨ verificationSatisfied record.job.verification
    common.2 results evidence = false) .marketVerification
  let paid ← sumChecked .marketEscrow (record.assignments.map Assignment.price)
  refuse (record.escrow < paid) .marketEscrow
  return ({ record with status := .settled },
    { jobID := record.id
      resultRoot := common.1
      payments := record.assignments.foldl
        (fun m a => m.add a.provider a.price) (∅ : Amounts)
      refund := record.escrow - paid
      collateralReturns := record.assignments.foldl
        (fun m a => m.add a.provider record.job.collateralRequired)
        (∅ : Amounts)
      slashedCollateral := ∅
      slashReward := 0 })

/-- How often each root was reported. -/
def rootCounts (results : List ComputeResult) :
    AList fun _ : Hash => Nat :=
  results.foldl
    (fun m r => m.insert r.resultRoot ((m.lookup r.resultRoot).getD 0 + 1)) ∅

/-- The root reported most often, and how often. -/
def majorityRoot (results : List ComputeResult) : Hash × Nat :=
  (rootCounts results).entries.foldl
    (fun best entry => if best.2 < entry.2 then (entry.1, entry.2) else best)
    (Bytes32.zero, 0)

/-- The accumulators of the loop over the assignments. -/
structure MajorityTotals where
  paid : UInt64
  slashReward : UInt64
  payments : Amounts
  collateralReturns : Amounts
  slashed : Amounts

/-- One assignment: paid on the majority root, slashed off it. -/
def majorityStep (record : OnChainJob) (majority : Hash)
    (s : MajorityTotals) (a : Assignment) : Except Error MajorityTotals := do
  let reported :=
    ((resultsByProvider record.results).lookup a.provider).map
      ComputeResult.resultRoot
  if reported.getD Bytes32.zero = majority then
    refuse (Overflows s.paid a.price) .marketEscrow
    return { s with
      paid := s.paid + a.price
      payments := s.payments.add a.provider a.price
      collateralReturns :=
        s.collateralReturns.add a.provider record.job.collateralRequired }
  else
    refuse (Overflows s.slashReward record.job.collateralRequired)
      .marketEscrow
    return { s with
      slashed := s.slashed.add a.provider record.job.collateralRequired
      slashReward := s.slashReward + record.job.collateralRequired }

/-- Providers on the strict majority root are paid and get their
collateral back; the collateral of the others goes to the job's owner. -/
def resolveReplicatedMajority (record : OnChainJob) :
    Except Error (OnChainJob × OnChainSettlement) := do
  refuse (record.job.verification ≠ .replicated ∨
    record.results.length < 3 ∨
    record.results.length ≠ record.assignments.length) .marketVerification
  let majority := majorityRoot record.results
  refuse (majority.2 * 2 ≤ record.results.length) .marketVerification
  let totals ← record.assignments.foldlM (majorityStep record majority.1)
    ⟨0, 0, ∅, ∅, ∅⟩
  refuse (record.escrow < totals.paid) .marketEscrow
  return ({ record with status := .settled },
    { jobID := record.id
      resultRoot := majority.1
      payments := totals.payments
      refund := record.escrow - totals.paid
      collateralReturns := totals.collateralReturns
      slashedCollateral := totals.slashed
      slashReward := totals.slashReward })

def expireOnChain (record : OnChainJob) (height : UInt64) :
    Except Error (OnChainJob × UInt64 × Amounts) := do
  refuse (record.status = .settled ∨ record.status = .expired ∨
    height ≤ record.job.deadlineHeight) .marketState
  return ({ record with status := .expired }, record.escrow,
    record.assignments.foldl
      (fun m a => m.add a.provider record.job.collateralRequired)
      (∅ : Amounts))

-- ==== runs

/-- A transition of a job. -/
inductive JobOp where
  | assign (offerID : Hash) (offer : Offer) (height : UInt64)
  | submit (result : ComputeResult)
  | finalize (evidence : VerificationEvidence)
  | resolve
  | expire (height : UInt64)

/-- The record after a transition. -/
def JobOp.apply (record : OnChainJob) : JobOp → Except Error OnChainJob
  | assign offerID offer height => do
      let out ← assignOnChain record offerID offer height
      return out.1
  | submit result => submitOnChainResult record result
  | finalize evidence => do
      let out ← finalizeOnChain record evidence
      return out.1
  | resolve => do
      let out ← resolveReplicatedMajority record
      return out.1
  | expire height => do
      let out ← expireOnChain record height
      return out.1

/-- One transition of a run, with the records around it. -/
structure JobStep where
  before : OnChainJob
  op : JobOp
  after : OnChainJob

/-- The transitions of a job since it was `origin`, in order, and the
record they lead to. -/
inductive JobRun (origin : OnChainJob) : List JobStep → OnChainJob → Prop
  | nil : JobRun origin [] origin
  | snoc {steps : List JobStep} {record next : OnChainJob} {op : JobOp} :
      JobRun origin steps record → op.apply record = .ok next →
      JobRun origin (steps ++ [⟨record, op, next⟩]) next

end ZephyrChain
