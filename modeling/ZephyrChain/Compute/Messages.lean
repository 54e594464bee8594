/-
The messages of the compute market (`internal/v2/compute`, messages.go):
an assignment or a result on its way to the shard of the job, the
references operations carry, and the receipt a settlement leaves behind.
-/
import ZephyrChain.Compute.OnChain

namespace ZephyrChain

open Lib

-- ==== assignments

structure AssignmentMessage where
  jobID : JobID
  jobOwner : AccountID
  jobShard : UInt32
  offerID : Hash
  offer : Offer
  job : Job
  deriving DecidableEq

namespace AssignmentMessage

def validate (m : AssignmentMessage) : Except Error Unit := do
  refuse (IsZero32 m.jobID ∨ IsZero32 m.jobOwner ∨ IsZero32 m.offerID ∨
    m.job.owner ≠ m.jobOwner) .computeMessage
  failWith .computeMessage m.offer.validate
  failWith .computeMessage m.job.validate
  refuse (offerMatchesJob m.offer m.job = false ∨
    m.offer.collateral < m.job.collateralRequired) .computeMessage

def encode (m : AssignmentMessage) : Bytes :=
  Writer.fixed m.jobID ++ Writer.fixed m.jobOwner ++ Writer.u32 m.jobShard ++
    Writer.fixed m.offerID ++ Writer.bytes m.offer.encode ++
    Writer.bytes m.job.encode

def marshalBinary (m : AssignmentMessage) : Except Error Bytes := do
  m.validate
  return m.encode

def read : Reader AssignmentMessage := do
  let jobID ← Reader.fixed
  let owner ← Reader.fixed
  let shard ← Reader.u32
  let offerID ← Reader.fixed
  let offerRaw ← Reader.bytes 1048576
  let offer ← liftM (parseOffer offerRaw)
  let jobRaw ← Reader.bytes 1048576
  let job ← liftM (parseJob jobRaw)
  return ⟨jobID, owner, shard, offerID, offer, job⟩

/-- The output that carries the message to the job's owner. -/
def output (m : AssignmentMessage) : Except Error OutputSpec := do
  let raw ← m.marshalBinary
  return ⟨m.jobOwner, .computeAssignment, raw⟩

/-- The message is about this job, byte for byte. -/
def validateForRecord (m : AssignmentMessage) (record : OnChainJob) :
    Except Error Unit := do
  refuse (record.id ≠ m.jobID ∨ record.job.owner ≠ m.jobOwner)
    .computeMessage
  let a ← record.job.marshalBinary
  let b ← failWith .computeMessage m.job.marshalBinary
  refuse (a ≠ b) .computeMessage
  m.validate

end AssignmentMessage

def parseAssignmentMessage (data : Bytes) :
    Except Error AssignmentMessage := do
  let message ← parseWith .computeMessage AssignmentMessage.read data
  message.validate
  return message

-- ==== results

structure ResultMessage where
  jobID : JobID
  jobOwner : AccountID
  jobShard : UInt32
  result : ComputeResult
  deriving DecidableEq

namespace ResultMessage

def validate (m : ResultMessage) : Except Error Unit := do
  refuse (IsZero32 m.jobID ∨ IsZero32 m.jobOwner ∨ m.result.jobID ≠ m.jobID)
    .computeMessage
  m.result.validate

def encode (m : ResultMessage) : Bytes :=
  Writer.fixed m.jobID ++ Writer.fixed m.jobOwner ++ Writer.u32 m.jobShard ++
    Writer.bytes m.result.encode

def marshalBinary (m : ResultMessage) : Except Error Bytes := do
  m.validate
  return m.encode

def read : Reader ResultMessage := do
  let jobID ← Reader.fixed
  let owner ← Reader.fixed
  let shard ← Reader.u32
  let raw ← Reader.bytes 2048
  let result ← liftM (parseComputeResult raw)
  return ⟨jobID, owner, shard, result⟩

def output (m : ResultMessage) : Except Error OutputSpec := do
  let raw ← m.marshalBinary
  return ⟨m.jobOwner, .computeResult, raw⟩

end ResultMessage

def parseResultMessage (data : Bytes) : Except Error ResultMessage := do
  let message ← parseWith .computeMessage ResultMessage.read data
  message.validate
  return message

-- ==== references

structure IngestRef where
  jobObject : ObjectID
  messageObject : ObjectID
  deriving DecidableEq

def parseIngestRef (data : Bytes) : Except Error IngestRef := do
  refuse (data.length ≠ 64) .computeMessage
  let out : IngestRef :=
    ⟨Bytes32.copy32 (data.take 32), Bytes32.copy32 (data.drop 32)⟩
  refuse (IsZero32 out.jobObject ∨ IsZero32 out.messageObject ∨
    out.jobObject = out.messageObject) .computeMessage
  return out

/-- `ParseJobRef`: the id of the job object. -/
def parseJobRef (data : Bytes) : Except Error ObjectID := do
  refuse (data.length ≠ 32) .computeMessage
  refuse (IsZero32 (Bytes32.copy32 data)) .computeMessage
  return Bytes32.copy32 data

-- ==== receipts

structure SettlementReceipt where
  jobID : JobID
  resultRoot : Hash
  payments : Amounts
  refund : UInt64
  slashed : Amounts
  slashReward : UInt64
  expired : Bool

/-- `writeAccountAmounts`: the entries in the order of the accounts. -/
def Amounts.encode (values : Amounts) : Bytes :=
  let ids := values.keys.insertionSort Bytes32.Before
  Writer.u32 (UInt32.ofNat ids.length) ++
    ids.flatMap fun id => Writer.fixed id ++ Writer.u64 (values.get id)

def SettlementReceipt.marshalBinary (r : SettlementReceipt) : Bytes :=
  Writer.fixed r.jobID ++ Writer.fixed r.resultRoot ++ r.payments.encode ++
    Writer.u64 r.refund ++ r.slashed.encode ++ Writer.u64 r.slashReward ++
    Writer.bool r.expired

end ZephyrChain
