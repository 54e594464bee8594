/-
The compute market's records (`internal/v2/compute`, model.go and
state.go): resources, offers, jobs and results, with their checks and
wire forms.

Capabilities are written trimmed and read as they are, so a record reads
back with its capabilities trimmed; the checks do not tell the two apart.
-/
import ZephyrChain.Types

namespace ZephyrChain

open Lib

-- ==== modes

inductive VerificationMode where
  | unknown
  | deterministic
  | replicated
  | challenge
  | zeroKnowledge
  | tee
  | clientApproved
  | hybrid
  /-- A number no mode is assigned to. -/
  | unassigned (number : UInt8) (h : 8 ≤ number.toNat)
  deriving DecidableEq

namespace VerificationMode

def toUInt8 : VerificationMode → UInt8
  | unknown => 0
  | deterministic => 1
  | replicated => 2
  | challenge => 3
  | zeroKnowledge => 4
  | tee => 5
  | clientApproved => 6
  | hybrid => 7
  | unassigned n _ => n

def assigned : List VerificationMode :=
  [unknown, deterministic, replicated, challenge, zeroKnowledge, tee,
    clientApproved, hybrid]

def ofUInt8 (n : UInt8) : VerificationMode :=
  if h : n.toNat < assigned.length then assigned.get ⟨n.toNat, h⟩
  else unassigned n (by simpa [assigned] using h)

@[simp] theorem ofUInt8_toUInt8 (m : VerificationMode) :
    ofUInt8 m.toUInt8 = m := by
  cases m with
  | unassigned n h =>
    have hn : ¬ n.toNat < assigned.length := by
      simpa [assigned] using h
    exact dif_neg hn
  | _ => decide

end VerificationMode

-- ==== resources

structure Resources where
  cpuCores : UInt16
  memoryMiB : UInt32
  gpuCount : UInt16
  gpuMemoryMiB : UInt32
  storageMiB : UInt64
  bandwidthMbps : UInt32
  capabilities : List Bytes
  deriving DecidableEq

namespace Resources

def validate (r : Resources) : Except Error Unit := do
  refuse (r.cpuCores = 0 ∧ r.gpuCount = 0) .invalidOffer
  refuse (r.memoryMiB = 0 ∨ 32 < r.capabilities.length) .invalidOffer
  refuse (∃ c ∈ r.capabilities, trimSpace c = [] ∨ 64 < c.length)
    .invalidOffer

/-- `writeResources`. -/
def encode (r : Resources) : Bytes :=
  Writer.u16 r.cpuCores ++ Writer.u32 r.memoryMiB ++ Writer.u16 r.gpuCount ++
    Writer.u32 r.gpuMemoryMiB ++ Writer.u64 r.storageMiB ++
    Writer.u32 r.bandwidthMbps ++
    Writer.u32 (UInt32.ofNat r.capabilities.length) ++
    r.capabilities.flatMap fun c => Writer.bytes (trimSpace c)

/-- `readResources`. -/
def read : Reader Resources := do
  let cpu ← Reader.u16
  let memory ← Reader.u32
  let gpu ← Reader.u16
  let gpuMemory ← Reader.u32
  let storage ← Reader.u64
  let bandwidth ← Reader.u32
  let count ← Reader.u32
  liftM (refuse (32 < count) Error.invalidOffer)
  let capabilities ← readMany (Reader.bytes 64) count.toNat
  return ⟨cpu, memory, gpu, gpuMemory, storage, bandwidth, capabilities⟩

end Resources

-- ==== offers

structure Offer where
  provider : AccountID
  resources : Resources
  pricePerUnit : UInt64
  collateral : UInt64
  verification : List VerificationMode
  validUntilHeight : UInt64
  deriving DecidableEq

namespace Offer

def validate (o : Offer) : Except Error Unit := do
  refuse (IsZero32 o.provider ∨ o.pricePerUnit = 0 ∨
    o.validUntilHeight = 0 ∨ o.verification.length = 0 ∨
    7 < o.verification.length) .invalidOffer
  o.resources.validate

def encode (o : Offer) : Bytes :=
  Writer.fixed o.provider ++ o.resources.encode ++
    Writer.u64 o.pricePerUnit ++ Writer.u64 o.collateral ++
    Writer.u32 (UInt32.ofNat o.verification.length) ++
    o.verification.flatMap (fun m => Writer.u8 m.toUInt8) ++
    Writer.u64 o.validUntilHeight

def marshalBinary (o : Offer) : Except Error Bytes := do
  o.validate
  return o.encode

def readMode : Reader VerificationMode := do
  let mode ← Reader.u8
  return VerificationMode.ofUInt8 mode

def read : Reader Offer := do
  let provider ← Reader.fixed
  let resources ← Resources.read
  let price ← Reader.u64
  let collateral ← Reader.u64
  let count ← Reader.u32
  liftM (refuse (count = 0 ∨ 7 < count) Error.invalidOffer)
  let modes ← readMany readMode count.toNat
  let validUntil ← Reader.u64
  return ⟨provider, resources, price, collateral, modes, validUntil⟩

end Offer

def parseOffer (data : Bytes) : Except Error Offer := do
  let offer ← parseWith .invalidOffer Offer.read data
  offer.validate
  return offer

-- ==== jobs

structure Job where
  owner : AccountID
  workloadHash : Hash
  inputRoot : Hash
  resources : Resources
  maxPrice : UInt64
  collateralRequired : UInt64
  verification : VerificationMode
  deadlineHeight : UInt64
  replicas : UInt16
  isPrivate : Bool
  deriving DecidableEq

namespace Job

def validate (j : Job) : Except Error Unit := do
  refuse (IsZero32 j.owner ∨ IsZero32 j.workloadHash ∨
    IsZero32 j.inputRoot ∨ j.maxPrice = 0 ∨ j.deadlineHeight = 0 ∨
    j.verification.toUInt8 = 0 ∨ 7 < j.verification.toUInt8) .invalidJob
  refuse (j.verification = .replicated ∧ j.replicas < 2) .invalidJob
  j.resources.validate

def encode (j : Job) : Bytes :=
  Writer.fixed j.owner ++ Writer.fixed j.workloadHash ++
    Writer.fixed j.inputRoot ++ j.resources.encode ++
    Writer.u64 j.maxPrice ++ Writer.u64 j.collateralRequired ++
    Writer.u8 j.verification.toUInt8 ++ Writer.u64 j.deadlineHeight ++
    Writer.u16 j.replicas ++ Writer.bool j.isPrivate

def marshalBinary (j : Job) : Except Error Bytes := do
  j.validate
  return j.encode

def read : Reader Job := do
  let owner ← Reader.fixed
  let workload ← Reader.fixed
  let inputRoot ← Reader.fixed
  let resources ← Resources.read
  let maxPrice ← Reader.u64
  let collateral ← Reader.u64
  let mode ← Reader.u8
  let deadline ← Reader.u64
  let replicas ← Reader.u16
  let confidential ← Reader.bool
  return ⟨owner, workload, inputRoot, resources, maxPrice, collateral,
    VerificationMode.ofUInt8 mode, deadline, replicas, confidential⟩

/-- Number of providers a job is assigned to. -/
def requiredAssignments (j : Job) : Nat :=
  if j.verification = .replicated then j.replicas.toNat else 1

end Job

def parseJob (data : Bytes) : Except Error Job := do
  let job ← parseWith .invalidJob Job.read data
  job.validate
  return job

-- ==== results

structure ComputeResult where
  jobID : JobID
  provider : AccountID
  resultRoot : Hash
  proofHash : Hash
  attestationHash : Hash
  completedHeight : UInt64
  deriving DecidableEq

namespace ComputeResult

def validate (r : ComputeResult) : Except Error Unit :=
  refuse (IsZero32 r.jobID ∨ IsZero32 r.provider ∨ IsZero32 r.resultRoot ∨
    r.completedHeight = 0) .invalidComputeResult

def encode (r : ComputeResult) : Bytes :=
  Writer.fixed r.jobID ++ Writer.fixed r.provider ++
    Writer.fixed r.resultRoot ++ Writer.fixed r.proofHash ++
    Writer.fixed r.attestationHash ++ Writer.u64 r.completedHeight

def read : Reader ComputeResult := do
  let jobID ← Reader.fixed
  let provider ← Reader.fixed
  let resultRoot ← Reader.fixed
  let proofHash ← Reader.fixed
  let attestationHash ← Reader.fixed
  let completedHeight ← Reader.u64
  return ⟨jobID, provider, resultRoot, proofHash, attestationHash,
    completedHeight⟩

end ComputeResult

def parseComputeResult (data : Bytes) : Except Error ComputeResult := do
  let result ← parseWith .invalidComputeResult ComputeResult.read data
  result.validate
  return result

-- ==== matching

/-- The offer supports the mode the job asks for. -/
def supportsMode (modes : List VerificationMode)
    (target : VerificationMode) : Bool :=
  modes.any fun mode => mode = target ∨ mode = .hybrid

/-- The offer's resources and collateral cover the job. -/
def offerMatchesJob (offer : Offer) (job : Job) : Bool :=
  ¬ (offer.resources.cpuCores < job.resources.cpuCores ∨
      offer.resources.memoryMiB < job.resources.memoryMiB ∨
      offer.resources.gpuCount < job.resources.gpuCount ∨
      offer.resources.gpuMemoryMiB < job.resources.gpuMemoryMiB ∨
      offer.resources.storageMiB < job.resources.storageMiB ∨
      offer.resources.bandwidthMbps < job.resources.bandwidthMbps ∨
      offer.collateral < job.collateralRequired ∨
      supportsMode offer.verification job.verification = false) ∧
    ∀ c ∈ job.resources.capabilities, c ∈ offer.resources.capabilities

end ZephyrChain
