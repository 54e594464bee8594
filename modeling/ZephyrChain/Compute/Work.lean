/-
Verified compute work (`internal/v2/compute`: work.go, settled_work.go,
settlement_receipt.go).

A registry holds the normalized size of approved workloads. What a
settled job delivered and was paid can be read in three ways: from its
record before the settlement and the receipt that was left
(`observeFinalizedSettlement`), from the settlement itself
(`observeVerifiedWork`), and from the settled record alone
(`observeSettledRecord`). A nil registry is `none`.
-/
import ZephyrChain.Compute.Messages

namespace ZephyrChain

open Lib

-- ==== registry

structure WorkVector where
  cpuUnits : UInt64
  gpuFP32Units : UInt64
  gpuFP64Units : UInt64
  tensorUnits : UInt64
  memoryByteSeconds : UInt64
  vramByteSeconds : UInt64
  storageBytes : UInt64
  networkBytes : UInt64
  deriving DecidableEq

def WorkVector.zero : WorkVector := ⟨0, 0, 0, 0, 0, 0, 0, 0⟩

structure WorkSpec where
  version : UInt16
  workClass : UInt8
  units : UInt64
  workloadHash : Hash
  benchmarkHash : Hash
  vector : WorkVector
  deriving DecidableEq

namespace WorkSpec

/-- The classes are 1 to 11. -/
def validate (s : WorkSpec) : Except Error Unit :=
  refuse (s.version ≠ 1 ∨ s.workClass = 0 ∨ 12 ≤ s.workClass ∨
    s.units = 0 ∨ IsZero32 s.workloadHash ∨ IsZero32 s.benchmarkHash ∨
    s.vector = .zero) .invalidWorkSpec

def encode (s : WorkSpec) : Bytes :=
  Writer.u16 s.version ++ Writer.u8 s.workClass ++ Writer.u64 s.units ++
    Writer.fixed s.workloadHash ++ Writer.fixed s.benchmarkHash ++
    Writer.u64 s.vector.cpuUnits ++ Writer.u64 s.vector.gpuFP32Units ++
    Writer.u64 s.vector.gpuFP64Units ++ Writer.u64 s.vector.tensorUnits ++
    Writer.u64 s.vector.memoryByteSeconds ++
    Writer.u64 s.vector.vramByteSeconds ++
    Writer.u64 s.vector.storageBytes ++ Writer.u64 s.vector.networkBytes

end WorkSpec

/-- Specifications by workload. -/
abbrev WorkRegistry := AList fun _ : Hash => WorkSpec

namespace WorkRegistry

def register (r : WorkRegistry) (spec : WorkSpec) :
    Except Error WorkRegistry := do
  failWith .invalidWorkRegistry spec.validate
  match r.lookup spec.workloadHash with
  | some existing => do
      refuse (existing.encode ≠ spec.encode) .invalidWorkRegistry
      return r
  | none => return r.insert spec.workloadHash spec

def new (specs : List WorkSpec) : Except Error WorkRegistry :=
  specs.foldlM register ∅

end WorkRegistry

def resolve (registry : Option WorkRegistry) (workload : Hash) :
    Option WorkSpec :=
  registry.bind fun r => r.lookup workload

/-- The specification of a job's workload, which must be valid. -/
def registeredSpec (registry : Option WorkRegistry) (workload : Hash) :
    Except Error WorkSpec := do
  let spec ← require (resolve registry workload) .invalidWorkSettlement
  failWith .invalidWorkSettlement spec.validate
  return spec

-- ==== observations

structure VerifiedWork where
  jobID : JobID
  workClass : UInt8
  units : UInt64
  vector : WorkVector
  paidZPH : UInt64
  verification : VerificationMode
  resultRoot : Hash
  deriving DecidableEq

def observation (record : OnChainJob) (spec : WorkSpec) (paid : UInt64)
    (root : Hash) : VerifiedWork :=
  ⟨record.id, spec.workClass, spec.units, spec.vector, paid,
    record.job.verification, root⟩

def observeVerifiedWork (record : OnChainJob)
    (settlement : OnChainSettlement) (registry : Option WorkRegistry) :
    Except Error VerifiedWork := do
  refuse (record.status ≠ .settled ∨ settlement.jobID ≠ record.id ∨
    IsZero32 settlement.resultRoot) .invalidWorkSettlement
  let spec ← registeredSpec registry record.job.workloadHash
  let paid ← sumChecked .invalidWorkSettlement
    (settlement.payments.entries.map Sigma.snd)
  refuse (paid = 0) .invalidWorkSettlement
  return observation record spec paid settlement.resultRoot

/-- The first loop of `observeSettledRecord`: what each provider
reported. -/
def reportStep (jobID : JobID) (reported : AList fun _ : AccountID => Hash)
    (r : ComputeResult) :
    Except Error (AList fun _ : AccountID => Hash) := do
  failWith .invalidWorkSettlement r.validate
  refuse (r.jobID ≠ jobID) .invalidWorkSettlement
  refuse (r.provider ∈ reported) .invalidWorkSettlement
  return reported.insert r.provider r.resultRoot

/-- The second one: what was paid so far, and to whom. -/
def paidStep (mode : VerificationMode) (accepted : Hash)
    (reported : AList fun _ : AccountID => Hash)
    (s : UInt64 × List AccountID) (a : Assignment) :
    Except Error (UInt64 × List AccountID) := do
  refuse (a.provider ∈ s.2 ∨ a.price = 0) .invalidWorkSettlement
  let root ← require (reported.lookup a.provider) .invalidWorkSettlement
  if mode = .replicated ∧ root ≠ accepted then
    return (s.1, a.provider :: s.2)
  else do
    refuse (Overflows s.1 a.price) .invalidWorkSettlement
    return (s.1 + a.price, a.provider :: s.2)

def observeSettledRecord (record : OnChainJob)
    (registry : Option WorkRegistry) : Except Error VerifiedWork := do
  refuse (record.status ≠ .settled ∨ record.assignments = [] ∨
    record.results = []) .invalidWorkSettlement
  let spec ← registeredSpec registry record.job.workloadHash
  let reported ← record.results.foldlM (reportStep record.id) ∅
  let accepted := majorityRoot record.results
  refuse (IsZero32 accepted.1) .invalidWorkSettlement
  refuse (if record.job.verification = .replicated then
    accepted.2 * 2 ≤ record.results.length
    else accepted.2 ≠ record.results.length) .invalidWorkSettlement
  let paid ← record.assignments.foldlM
    (paidStep record.job.verification accepted.1 reported) (0, [])
  refuse (paid.1 = 0 ∨ record.escrow < paid.1) .invalidWorkSettlement
  return observation record spec paid.1 accepted.1

-- ==== receipts

/-- One entry of `readAccountAmounts`. -/
def readAmount (out : Amounts) : Reader Amounts := do
  let account ← Reader.fixed
  let amount ← Reader.u64
  liftM (refuse (amount = 0 ∨ IsZero32 account ∨ account ∈ out)
    Error.marketState)
  return out.insert account amount

def readAmounts : Nat → Amounts → Reader Amounts
  | 0, out => pure out
  | n + 1, out => do
      let out ← readAmount out
      readAmounts n out

def readAccountAmounts : Reader Amounts := do
  let count ← Reader.u32
  liftM (refuse (1024 < count.toNat) Error.marketState)
  readAmounts count.toNat ∅

namespace SettlementReceipt

def read : Reader SettlementReceipt := do
  let jobID ← Reader.fixed
  let resultRoot ← Reader.fixed
  let payments ← readAccountAmounts
  let refund ← Reader.u64
  let slashed ← readAccountAmounts
  let slashReward ← Reader.u64
  let expired ← Reader.bool
  return ⟨jobID, resultRoot, payments, refund, slashed, slashReward, expired⟩

/-- What a receipt must be: one of an expiry pays and slashes nobody, any
other has a root and pays somebody. -/
def WellFormed (r : SettlementReceipt) : Prop :=
  ¬ IsZero32 r.jobID ∧
    if r.expired = true then IsZero32 r.resultRoot ∧ r.payments.keys = [] ∧
      r.slashed.keys = [] ∧ r.slashReward = 0
    else ¬ IsZero32 r.resultRoot ∧ r.payments.keys ≠ []

instance (r : SettlementReceipt) : Decidable r.WellFormed :=
  inferInstanceAs (Decidable (_ ∧ _))

end SettlementReceipt

def parseSettlementReceipt (data : Bytes) :
    Except Error SettlementReceipt := do
  let receipt ← parseWith .marketState SettlementReceipt.read data
  refuse (¬ receipt.WellFormed) .marketState
  return receipt

/-- The receipt of a settlement. -/
def OnChainSettlement.receipt (s : OnChainSettlement) (jobID : JobID) :
    SettlementReceipt where
  jobID := jobID
  resultRoot := s.resultRoot
  payments := s.payments
  refund := s.refund
  slashed := s.slashedCollateral
  slashReward := s.slashReward
  expired := false

/-- Settle a record by agreement, and else by majority. -/
def settleAgain (record : OnChainJob) :
    Except Error (OnChainJob × OnChainSettlement) :=
  match finalizeOnChain record ⟨false, false, false, false, false⟩ with
  | .ok out => .ok out
  | .error _ => resolveReplicatedMajority record

/-- Settle the record again and compare the receipts byte by byte. -/
def observeFinalizedSettlement (record : OnChainJob)
    (receipt : SettlementReceipt) (registry : Option WorkRegistry) :
    Except Error VerifiedWork := do
  refuse (registry = none ∨ receipt.expired = true ∨
    receipt.jobID ≠ record.id ∨ record.status ≠ .awaitingVerification)
    .invalidWorkSettlement
  let (updated, settlement) ← failWith .invalidWorkSettlement
    (settleAgain record)
  refuse (receipt.marshalBinary ≠
    (settlement.receipt record.id).marshalBinary) .invalidWorkSettlement
  observeVerifiedWork updated settlement registry

end ZephyrChain
