/-
The compute market (`internal/v2/compute`, market.go): a store of
published offers and posted jobs, with the same life of a job as the
records on the chain have (`Compute.OnChain`), written a second time over
a mutable record.

# Maps

A job keeps its results in a Go map from providers. Two loops of
`Finalize` run over it, `commonResultRoot` and `verificationSatisfied`;
`order` says in which order.

`Expire` visits the jobs in any order as well; it changes each by itself
and sorts the ids it reports.
-/
import ZephyrChain.Compute.OnChain
import ZephyrChain.Lib.MapOrder

namespace ZephyrChain

open Lib

-- ==== records

structure OfferRecord where
  id : Hash
  offer : Offer

structure JobRecord where
  id : JobID
  job : Job
  escrow : UInt64
  status : JobStatus
  assignments : List Assignment
  results : AList fun _ : AccountID => ComputeResult

structure Settlement where
  jobID : JobID
  resultRoot : Hash
  payments : Amounts
  refund : UInt64

structure Market where
  offers : AList fun _ : Hash => OfferRecord
  jobs : AList fun _ : JobID => JobRecord

def offerID (C : Crypto) (offer : Offer) : Except Error Hash := do
  let raw ← offer.marshalBinary
  return domainHash C "zephyr/compute-offer/v2" raw

def computeJobID (C : Crypto) (job : Job) : Except Error JobID := do
  let raw ← job.marshalBinary
  return domainHash C "zephyr/compute-job/v2" raw

-- ==== settlement

/-- One result in the loop of `commonResultRoot`; nothing has been seen
before the first one. -/
def commonRootStep (seen : Option (Hash × Bool)) (r : ComputeResult) :
    Option (Hash × Bool) :=
  match seen with
  | none => some (r.resultRoot, true)
  | some (root, same) =>
    some (root, if r.resultRoot = root then same else false)

/-- The root of the first result visited, and whether all results agree
on it. -/
def commonResultRoot (visited : List ComputeResult) : Hash × Bool :=
  (visited.foldl commonRootStep none).getD (Bytes32.zero, false)

namespace JobRecord

def assign (job : JobRecord) (offerID : Hash) (offer : Offer)
    (height : UInt64) : Except Error (JobRecord × Assignment) := do
  refuse (job.status = .settled ∨ job.status = .expired ∨ height = 0 ∨
    job.job.deadlineHeight < height ∨ offer.validUntilHeight < height)
    .marketState
  refuse (offerMatchesJob offer job.job = false) .marketMatch
  refuse (∃ a ∈ job.assignments, a.provider = offer.provider)
    .marketDuplicate
  let target := job.job.requiredAssignments
  refuse (target ≤ job.assignments.length) .marketState
  let committed ← sumChecked .marketEscrow
    (job.assignments.map Assignment.price)
  let price := offer.pricePerUnit
  refuse (job.job.maxPrice < price ∨ Overflows committed price ∨
    job.job.maxPrice < committed + price ∨ job.escrow < committed + price)
    .marketEscrow
  let assignment : Assignment := ⟨offerID, offer.provider, price⟩
  let assignments := job.assignments ++ [assignment]
  return ({ job with
    assignments
    status := if assignments.length = target then .assigned
      else job.status }, assignment)

def submitResult (job : JobRecord) (result : ComputeResult) :
    Except Error JobRecord := do
  refuse (job.status ≠ .assigned ∧ job.status ≠ .awaitingVerification)
    .marketState
  refuse (job.job.deadlineHeight < result.completedHeight) .marketState
  refuse (¬ ∃ a ∈ job.assignments, a.provider = result.provider)
    .marketMatch
  refuse (result.provider ∈ job.results) .marketDuplicate
  let results := job.results.insert result.provider result
  return { job with
    results
    status := if results.entries.length = job.job.requiredAssignments
      then .awaitingVerification else job.status }

def finalize (order : MapOrder) (jobID : JobID) (job : JobRecord)
    (evidence : VerificationEvidence) :
    Except Error (JobRecord × Settlement) := do
  refuse (job.status ≠ .awaitingVerification ∨
    job.results.entries.length ≠ job.job.requiredAssignments) .marketState
  let common := commonResultRoot
    ((order.reorder 0 job.results).entries.map Sigma.snd)
  let results := (order.reorder 1 job.results).entries.map Sigma.snd
  refuse (IsZero32 common.1 ∨ verificationSatisfied job.job.verification
    common.2 results evidence = false) .marketVerification
  let paid ← sumChecked .marketEscrow (job.assignments.map Assignment.price)
  refuse (job.escrow < paid) .marketEscrow
  return ({ job with status := .settled },
    { jobID
      resultRoot := common.1
      payments := job.assignments.foldl
        (fun m a => m.add a.provider a.price) (∅ : Amounts)
      refund := job.escrow - paid })

/-- The job is open past its deadline. -/
def Due (job : JobRecord) (height : UInt64) : Prop :=
  job.status ≠ .settled ∧ job.status ≠ .expired ∧
    job.job.deadlineHeight < height

instance (job : JobRecord) (height : UInt64) :
    Decidable (job.Due height) :=
  inferInstanceAs (Decidable (_ ∧ _))

def expire (height : UInt64) (job : JobRecord) : JobRecord :=
  if job.Due height then { job with status := .expired } else job

end JobRecord

-- ==== calls

namespace Market

def publishOffer (C : Crypto) (m : Market) (offer : Offer)
    (height : UInt64) : Except Error (Market × Hash) := do
  failWith .invalidOffer offer.validate
  refuse (height = 0 ∨ offer.validUntilHeight < height) .invalidOffer
  let id ← offerID C offer
  refuse (id ∈ m.offers) .marketDuplicate
  return ({ m with offers := m.offers.insert id ⟨id, offer⟩ }, id)

def postJob (C : Crypto) (m : Market) (job : Job)
    (escrow height : UInt64) : Except Error (Market × JobID) := do
  failWith .invalidJob job.validate
  refuse (height = 0 ∨ job.deadlineHeight < height) .invalidJob
  refuse (escrow < job.maxPrice) .marketEscrow
  let id ← computeJobID C job
  refuse (id ∈ m.jobs) .marketDuplicate
  return ({ m with
    jobs := m.jobs.insert id ⟨id, job, escrow, .pending, [], ∅⟩ }, id)

/-- The record of a job is changed in place. -/
def update (m : Market) (jobID : JobID) (job : JobRecord) : Market :=
  { m with jobs := m.jobs.insert jobID job }

def assign (m : Market) (jobID : JobID) (offerID : Hash)
    (height : UInt64) : Except Error (Market × Assignment) := do
  let job ← require (m.jobs.lookup jobID) .marketNotFound
  let record ← require (m.offers.lookup offerID) .marketNotFound
  let (job, assignment) ← job.assign offerID record.offer height
  return (m.update jobID job, assignment)

def submitResult (m : Market) (result : ComputeResult) :
    Except Error Market := do
  result.validate
  let job ← require (m.jobs.lookup result.jobID) .marketNotFound
  let job ← job.submitResult result
  return m.update result.jobID job

def finalize (order : MapOrder) (m : Market) (jobID : JobID)
    (evidence : VerificationEvidence) :
    Except Error (Market × Settlement) := do
  let job ← require (m.jobs.lookup jobID) .marketNotFound
  let (job, settlement) ← job.finalize order jobID evidence
  return (m.update jobID job, settlement)

def expire (m : Market) (height : UInt64) : Market × List JobID :=
  ({ m with
      jobs := ⟨m.jobs.entries.map fun e => ⟨e.1, e.2.expire height⟩, by
        have hkeys := m.jobs.nodupKeys
        unfold List.NodupKeys List.keys at hkeys ⊢
        rwa [List.map_map]⟩ },
    ((m.jobs.entries.filter fun e => e.2.Due height).map
      Sigma.fst).insertionSort Bytes32.Before)

end Market

-- ==== runs

/-- A call on the market. -/
inductive MarketOp where
  | publish (offer : Offer) (height : UInt64)
  | post (job : Job) (escrow height : UInt64)
  | assign (jobID : JobID) (offerID : Hash) (height : UInt64)
  | submit (result : ComputeResult)
  | finalize (order : MapOrder) (jobID : JobID)
      (evidence : VerificationEvidence)
  | expire (height : UInt64)

/-- What a call on a job is answered with. -/
inductive JobAnswer where
  | assigned (assignment : Assignment)
  | submitted
  | settled (settlement : Settlement)
  | other

/-- The market after a call, and its answer. -/
def MarketOp.apply (C : Crypto) (m : Market) :
    MarketOp → Except Error (Market × JobAnswer)
  | publish offer height => do
      let out ← m.publishOffer C offer height
      return (out.1, .other)
  | post job escrow height => do
      let out ← m.postJob C job escrow height
      return (out.1, .other)
  | assign jobID offerID height => do
      let out ← m.assign jobID offerID height
      return (out.1, .assigned out.2)
  | submit result => do
      let out ← m.submitResult result
      return (out, .submitted)
  | finalize order jobID evidence => do
      let out ← m.finalize order jobID evidence
      return (out.1, .settled out.2)
  | expire height => return ((m.expire height).1, .other)

/-- The settlement inside of one on the chain. -/
def OnChainSettlement.settlement (s : OnChainSettlement) : Settlement :=
  ⟨s.jobID, s.resultRoot, s.payments, s.refund⟩

/-- The record after a transition, and its answer. -/
def JobOp.answer (record : OnChainJob) :
    JobOp → Except Error (OnChainJob × JobAnswer)
  | assign offerID offer height => do
      let out ← assignOnChain record offerID offer height
      return (out.1, .assigned out.2.1)
  | submit result => do
      let out ← submitOnChainResult record result
      return (out, .submitted)
  | finalize evidence => do
      let out ← finalizeOnChain record evidence
      return (out.1, .settled out.2.settlement)
  | resolve => do
      let out ← resolveReplicatedMajority record
      return (out.1, .settled out.2.settlement)
  | expire height => do
      let out ← expireOnChain record height
      return (out.1, .other)

/-- The transition that a call on the market is for a job on the chain,
if it is a call on that job. An assignment is one of a published
offer. -/
def MarketOp.onChain (m : Market) (id : JobID) : MarketOp → Option JobOp
  | publish _ _ => none
  | post _ _ _ => none
  | assign jobID offerID height =>
    if jobID = id then
      (m.offers.lookup offerID).map fun record =>
        .assign offerID record.offer height
    else none
  | submit result => if result.jobID = id then some (.submit result) else none
  | finalize _ jobID evidence =>
    if jobID = id then some (.finalize evidence) else none
  | expire height => some (.expire height)

/-- The state a call that may fail leaves. -/
def settleCall {σ β : Type} (s : σ) (x : Except Error (σ × β)) : σ :=
  match x with
  | .ok out => out.1
  | .error _ => s

/-- One call, on the market and on the chain. -/
def lockstep (C : Crypto) (id : JobID) (s : Market × OnChainJob)
    (op : MarketOp) : Market × OnChainJob :=
  (settleCall s.1 (op.apply C s.1),
    match op.onChain s.1 id with
    | some jobOp => settleCall s.2 (jobOp.answer s.2)
    | none => s.2)

/-- The calls after a job was posted, on the market and on the chain. -/
def lockstepRun (C : Crypto) (m : Market) (id : JobID) (job : Job)
    (escrow : UInt64) (ops : List MarketOp) : Market × OnChainJob :=
  ops.foldl (lockstep C id) (m, ⟨id, job, escrow, .pending, [], []⟩)

end ZephyrChain
