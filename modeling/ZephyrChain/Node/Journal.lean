/-
The global commit journal (`internal/v2/node/global_commit_journal.go`):
one file that holds the certified intent of the block being committed,
its deltas on every shard, and whether the commit went through.

`Validate` reports every failure with the same error, so the order of
its checks does not show; it is written as a row of guards in the order
of the source.

# The file

`JournalFile` is the content of the journal, none when the file does not
exist. The file is replaced as a whole: a temporary file is written and
renamed over it, then the directory is synced. `ReplaceFault` names
where that sequence stopped; the temporary file carries nothing that is
read again and is left out.
-/
import ZephyrChain.Consensus.Validators
import ZephyrChain.WorldState.Disk

namespace ZephyrChain.Node

open Lib
open Consensus (Certificate headerConsensusHash parseCertificate)

def globalCommitJournalVersion : UInt16 := 1
def globalCommitJournalMagic : Bytes := utf8 "ZGC2"
def globalCommitPreparing : UInt8 := 1
def globalCommitCommitted : UInt8 := 2
def maxGlobalCommitJournalBytes : Nat := 268435456
def maxJournalObjects : Nat := 1000000
def maxJournalShards : UInt32 := 1000000
def maxEconomicCheckpointBytes : Nat := 67108864

structure JournalShardDelta where
  shardID : UInt32
  preRoot : Hash
  postRoot : Hash
  consumed : List ObjectID
  created : List Object
  deriving DecidableEq

structure GlobalCommitIntent where
  status : UInt8
  network : NetworkID
  nativeToken : TokenID
  validatorRoot : Hash
  shardCount : UInt32
  preHeight : UInt64
  preParentHash : Hash
  header : GlobalHeader
  certificate : Certificate
  commitments : List Commitment
  deltas : List JournalShardDelta
  economicCheckpoint : Bytes
  deriving DecidableEq

/-- The commitment of a shard in a list of commitments. -/
def commitmentOf (commitments : List Commitment) (shard : UInt32) :
    Option Commitment :=
  commitments.find? fun c => c.shardID = shard

/-- The checks on one delta of an intent. -/
def JournalShardDelta.validate (d : JournalShardDelta) (shardCount : UInt32)
    (commitments : List Commitment) : Except Error Unit := do
  refuse (shardCount ≤ d.shardID ∨ maxJournalObjects < d.consumed.length ∨
    maxJournalObjects < d.created.length ∨ IsZero32 d.preRoot ∨
    IsZero32 d.postRoot) .globalCommitJournal
  let commitment ← require (commitmentOf commitments d.shardID)
    .globalCommitJournal
  refuse (commitment.stateRoot ≠ d.postRoot) .globalCommitJournal
  refuse (∃ id ∈ d.consumed, IsZero32 id) .globalCommitJournal
  refuse (∃ o ∈ d.created, ¬ o.Valid) .globalCommitJournal

namespace GlobalCommitIntent

variable (C : Crypto) (i : GlobalCommitIntent)

/-- The checks on the fields of an intent and their sizes. -/
def validateFields : Except Error Unit :=
  refuse ((i.status ≠ globalCommitPreparing ∧
      i.status ≠ globalCommitCommitted) ∨
    IsZero32 i.network ∨ IsZero32 i.nativeToken ∨
    IsZero32 i.validatorRoot ∨ i.shardCount = 0 ∨
    i.header.network ≠ i.network ∨ i.header.height ≠ i.preHeight + 1 ∨
    i.header.parentHash ≠ i.preParentHash ∨
    i.header.validatorRoot ≠ i.validatorRoot ∨
    i.certificate.network ≠ i.network ∨
    i.certificate.height ≠ i.header.height ∨
    i.certificate.headerHash ≠ headerConsensusHash C i.header ∨
    i.commitments.length ≠ i.shardCount.toNat ∨
    i.shardCount.toNat < i.deltas.length ∨
    maxEconomicCheckpointBytes + 8 + 32 < i.economicCheckpoint.length)
    .globalCommitJournal

def validate : Except Error Unit := do
  i.validateFields C
  let root ← failWith .globalCommitJournal (commitmentRoot C i.commitments)
  refuse (root ≠ i.header.shardCommitmentRoot) .globalCommitJournal
  refuse (∃ c ∈ i.commitments, i.shardCount ≤ c.shardID)
    .globalCommitJournal
  refuse (¬ (i.commitments.map Commitment.shardID).Nodup)
    .globalCommitJournal
  refuse (¬ (i.deltas.map JournalShardDelta.shardID).Nodup)
    .globalCommitJournal
  forM i.deltas fun d => d.validate i.shardCount i.commitments

-- ==== writing

/-- The four fields of a commitment. -/
def encodeCommitments (commitments : List Commitment) : Bytes :=
  Writer.u32 (UInt32.ofNat commitments.length) ++
    commitments.flatMap Commitment.canonicalBytes

def encodeDelta (d : JournalShardDelta) : Bytes :=
  Writer.u32 d.shardID ++ Writer.fixed d.preRoot ++
    Writer.fixed d.postRoot ++
    Writer.u32 (UInt32.ofNat d.consumed.length) ++
    d.consumed.flatMap Writer.fixed ++
    Writer.u32 (UInt32.ofNat d.created.length) ++
    d.created.flatMap fun o => Writer.bytes o.canonicalBytes

def encodeDeltas (deltas : List JournalShardDelta) : Bytes :=
  Writer.u32 (UInt32.ofNat deltas.length) ++ deltas.flatMap encodeDelta

/-- The fields in front of the header. -/
def encodeFront : Bytes :=
  Writer.u16 globalCommitJournalVersion ++ Writer.u8 i.status ++
    Writer.fixed i.network ++ Writer.fixed i.nativeToken ++
    Writer.fixed i.validatorRoot ++ Writer.u32 i.shardCount ++
    Writer.u64 i.preHeight ++ Writer.fixed i.preParentHash

def marshalBinary : Except Error Bytes := do
  i.validate C
  let headerRaw ← i.header.marshalBinary
  let certificateRaw ← i.certificate.marshalBinary
  return i.encodeFront ++ Writer.bytes headerRaw ++
    Writer.bytes certificateRaw ++
    encodeCommitments (i.commitments.insertionSort
      fun a b => a.shardID ≤ b.shardID) ++
    encodeDeltas (i.deltas.insertionSort fun a b => a.shardID ≤ b.shardID) ++
    Writer.bytes i.economicCheckpoint

/-- `encodeGlobalCommitJournal`: magic, length, payload and digest. -/
def encode : Except Error Bytes := do
  let payload ← failWith .globalCommitJournal (i.marshalBinary C)
  refuse (payload.length = 0 ∨ maxGlobalCommitJournalBytes < payload.length)
    .globalCommitJournal
  return globalCommitJournalMagic ++
    Writer.u32 (UInt32.ofNat payload.length) ++ payload ++
    Writer.fixed (domainHash C "zephyr/global-commit-journal/v2" payload)

end GlobalCommitIntent

-- ==== reading

def readCommitment : Reader Commitment := do
  let shardID ← Reader.u32
  let stateRoot ← Reader.fixed
  let receiptRoot ← Reader.fixed
  let dataRoot ← Reader.fixed
  return ⟨shardID, stateRoot, receiptRoot, dataRoot⟩

def readDelta : Reader JournalShardDelta := do
  let shardID ← Reader.u32
  let preRoot ← Reader.fixed
  let postRoot ← Reader.fixed
  let consumedCount ← Reader.u32
  liftM (refuse (maxJournalObjects < consumedCount.toNat)
    Error.globalCommitJournal)
  let consumed ← readMany Reader.fixed consumedCount.toNat
  let createdCount ← Reader.u32
  liftM (refuse (maxJournalObjects < createdCount.toNat)
    Error.globalCommitJournal)
  let created ← readMany WorldState.readStoredObject createdCount.toNat
  return ⟨shardID, preRoot, postRoot, consumed, created⟩

def readIntent : Reader GlobalCommitIntent := do
  let version ← Reader.u16
  liftM (refuse (version ≠ globalCommitJournalVersion)
    Error.globalCommitJournal)
  let status ← Reader.u8
  let network ← Reader.fixed
  let nativeToken ← Reader.fixed
  let validatorRoot ← Reader.fixed
  let shardCount ← Reader.u32
  liftM (refuse (shardCount = 0 ∨ maxJournalShards < shardCount)
    Error.globalCommitJournal)
  let preHeight ← Reader.u64
  let preParentHash ← Reader.fixed
  let headerRaw ← Reader.bytes 1048576
  let header ← liftM (parseGlobalHeader headerRaw)
  let certificateRaw ← Reader.bytes 67108864
  let certificate ← liftM (parseCertificate certificateRaw)
  let commitmentCount ← Reader.u32
  liftM (refuse (commitmentCount ≠ shardCount) Error.globalCommitJournal)
  let commitments ← readMany readCommitment commitmentCount.toNat
  let deltaCount ← Reader.u32
  liftM (refuse (shardCount < deltaCount) Error.globalCommitJournal)
  let deltas ← readMany readDelta deltaCount.toNat
  let economicCheckpoint ←
    Reader.bytes (UInt32.ofNat (maxEconomicCheckpointBytes + 8 + 32))
  return ⟨status, network, nativeToken, validatorRoot, shardCount, preHeight,
    preParentHash, header, certificate, commitments, deltas,
    economicCheckpoint⟩

variable (C : Crypto)

def parseGlobalCommitIntent (data : Bytes) :
    Except Error GlobalCommitIntent := do
  let intent ← parseNested .globalCommitJournal readIntent data
  intent.validate C
  return intent

/-- The payload between magic, length and digest. -/
def journalBody (data : Bytes) : Except Error Bytes := do
  refuse (data.length < 8 + 32 ∨
    maxGlobalCommitJournalBytes + 8 + 32 < data.length ∨
    data.take 4 ≠ globalCommitJournalMagic) .globalCommitJournal
  let length := ofBe ((data.drop 4).take 4)
  refuse (length = 0 ∨ maxGlobalCommitJournalBytes < length ∨
    data.length ≠ 8 + length + 32) .globalCommitJournal
  let payload := (data.drop 8).take length
  refuse ((domainHash C "zephyr/global-commit-journal/v2" payload).toList ≠
    data.drop (8 + length)) .globalCommitJournal
  return payload

def decodeGlobalCommitJournal (data : Bytes) :
    Except Error GlobalCommitIntent := do
  let payload ← journalBody C data
  parseGlobalCommitIntent C payload

-- ==== the file

/-- The content of the journal. -/
abbrev JournalFile := Option Bytes

/-- Where replacing the file stopped. -/
inductive ReplaceFault where
  | none
  /-- An error before the rename, or of the rename itself. -/
  | beforeRename
  /-- The new file is in place, syncing its directory fails. -/
  | afterRename
  deriving DecidableEq

/-- `writeGlobalCommitJournal`: the file after the call and its error. -/
def writeGlobalCommitJournal (file : JournalFile) (fault : ReplaceFault)
    (intent : GlobalCommitIntent) : JournalFile × Option Error :=
  match intent.encode C with
  | .error e => (file, some e)
  | .ok raw =>
    match fault with
    | .none => (some raw, none)
    | .beforeRename => (file, some .io)
    | .afterRename => (some raw, some .io)

end ZephyrChain.Node
