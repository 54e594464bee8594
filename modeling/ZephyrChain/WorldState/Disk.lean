/-
The durable world state (`internal/v2/worldstate/durable.go`): a
write-ahead log of deltas beside a checkpoint file, replayed when the
directory is opened.

# Files

`Dir` holds the content of `state.checkpoint` (none when the file does
not exist) and of `state.wal`. The temporary checkpoint file, the writer
lock and the file modes carry no state that `OpenDisk` reads and are
left out. The log is always written at its end: `OpenDisk` seeks there,
and `Checkpoint` truncates to zero and seeks to the start.

# Faults

A write to the log can stop after any number of bytes, and a sync can
fail behind a complete write. `AppendFault` names what happened to one
append; `none` is a call that returns without an error.

# Replay

`nextRecord` reads one record from the front of the log, and tells an
end of file and a torn record from a corrupt one as the source's three
`io.ReadFull` calls do. `replayFrom` is the loop over records.
-/
import ZephyrChain.WorldState.Memory
import Mathlib.Data.Finset.Sort

namespace ZephyrChain.WorldState

open Lib
open State (smtHash)

-- ==== crc32

/-- One bit of the reflected CRC with the Castagnoli polynomial. -/
def crcBit (crc : UInt32) : UInt32 :=
  if crc &&& 1 = 1 then (crc >>> 1) ^^^ 0x82F63B78 else crc >>> 1

def crcByte (crc : UInt32) (b : UInt8) : UInt32 :=
  (List.range 8).foldl (fun crc _ => crcBit crc) (crc ^^^ b.toUInt32)

/-- `crc32.Checksum(payload, crc32.MakeTable(crc32.Castagnoli))`. -/
def crc32c (payload : Bytes) : UInt32 :=
  ~~~ payload.foldl crcByte 0xFFFFFFFF

-- ==== files

def walMagic : Bytes := utf8 "ZWL2"
def checkpointMagic : Bytes := utf8 "ZCP2"
def persistenceVersion : UInt16 := 1
def maxWALRecordBytes : Nat := 67108864
def maxCheckpointBytes : Nat := 1073741824
def maxCheckpointObjects : UInt32 := 10000000
def maxWALRecordIDs : UInt32 := 1000000

/-- The two files of a state directory. -/
structure Dir where
  checkpoint : Option Bytes
  wal : Bytes
  deriving DecidableEq

def Dir.empty : Dir := ⟨none, []⟩

structure Disk where
  network : NetworkID
  mem : Memory
  objects : Objects
  seq : UInt64
  closed : Bool

/-- A disk before anything is loaded into it. -/
def newDisk (network : NetworkID) : Disk :=
  ⟨network, newMemory, ∅, 0, false⟩

/-- One delta of the log. -/
structure WALEntry where
  network : NetworkID
  seq : UInt64
  consumed : List ObjectID
  created : List Object

def encodeWALPayload (e : WALEntry) : Bytes :=
  Writer.u16 persistenceVersion ++ Writer.fixed e.network ++
    Writer.u64 e.seq ++ Writer.u32 (UInt32.ofNat e.consumed.length) ++
    e.consumed.flatMap Writer.fixed ++
    Writer.u32 (UInt32.ofNat e.created.length) ++
    e.created.flatMap fun item => Writer.bytes item.canonicalBytes

/-- An object as the log and the checkpoint store it. -/
def readStoredObject : Reader Object := do
  let raw ← Reader.bytes (maxObjectDataBytes + 128)
  liftM (parseObject raw)

def readWALEntry : Reader WALEntry := do
  let version ← Reader.u16
  liftM (refuse (version ≠ persistenceVersion) Error.persistenceCorrupt)
  let network ← Reader.fixed
  let seq ← Reader.u64
  liftM (refuse (seq = 0) Error.persistenceCorrupt)
  let consumedCount ← Reader.u32
  liftM (refuse (maxWALRecordIDs < consumedCount) Error.persistenceCorrupt)
  let consumed ← readMany Reader.fixed consumedCount.toNat
  let createdCount ← Reader.u32
  liftM (refuse (maxWALRecordIDs < createdCount) Error.persistenceCorrupt)
  let created ← readMany readStoredObject createdCount.toNat
  return ⟨network, seq, consumed, created⟩

def parseWALPayload (payload : Bytes) : Except Error WALEntry :=
  parseWith .persistenceCorrupt readWALEntry payload

/-- Header, payload and checksum of one record. -/
def walRecord (payload : Bytes) : Bytes :=
  walMagic ++ Writer.u32 (UInt32.ofNat payload.length) ++ payload ++
    Writer.u32 (crc32c payload)

/-- What can go wrong with one append. -/
inductive AppendFault where
  | none
  /-- A write stops with an error after this many bytes of the record. -/
  | cutAt (n : Nat)
  /-- The record is written, the sync returns an error. -/
  | syncFails

/-- The log after an append, and the error the call returns. -/
def appendWAL (wal payload : Bytes) (fault : AppendFault) :
    Bytes × Option Error :=
  if payload.length = 0 ∨ maxWALRecordBytes < payload.length then
    (wal, some .persistenceCorrupt)
  else match fault with
    | .none => (wal ++ walRecord payload, none)
    | .cutAt n => (wal ++ (walRecord payload).take n, some .io)
    | .syncFails => (wal ++ walRecord payload, some .io)

-- ==== operations

namespace Disk

variable (C : Crypto)

/-- `applyMirror`, on the disk's own copy of the objects. -/
def applyMirror (d : Disk) (consumed : List ObjectID)
    (created : List Object) : Disk :=
  { d with objects := applyObjects d.objects consumed created }

def prevalidate (d : Disk) (consumed : List ObjectID)
    (created : List Object) : Except Error Unit :=
  validateDelta d.objects consumed created

/-- `Apply`: log the delta, then take it. Returns the disk and the
directory after the call, the root and the error. -/
def apply (d : Disk) (dir : Dir) (fault : AppendFault)
    (consumed : List ObjectID) (created : List Object) :
    (Disk × Dir) × Hash × Option Error :=
  if d.closed then ((d, dir), d.mem.root C, some .persistenceClosed)
  else match d.prevalidate consumed created with
    | .error e => ((d, dir), d.mem.root C, some e)
    | .ok _ =>
      let next := d.seq + 1
      let payload := encodeWALPayload ⟨d.network, next, consumed, created⟩
      match appendWAL dir.wal payload fault with
      | (wal, some e) =>
        ((d, { dir with wal := wal }), d.mem.root C, some e)
      | (wal, none) =>
        let dir := { dir with wal := wal }
        match d.mem.apply C consumed created with
        | (mem, _, some _) =>
          let d := { d with mem := mem }
          ((d, dir), d.mem.root C, some .persistenceCorrupt)
        | (mem, root, none) =>
          let d := { d with mem := mem }
          let d := d.applyMirror consumed created
          (({ d with seq := next }, dir), root, none)

/-- The objects in the order of their ids. Every object is stored under
its own id. -/
def sortedObjects (objects : Objects) : List Object :=
  (objects.keys.sort Bytes32.Before).filterMap objects.lookup

def checkpointPayload (d : Disk) : Bytes :=
  let objects := sortedObjects d.objects
  Writer.u16 persistenceVersion ++ Writer.fixed d.network ++
    Writer.u64 d.seq ++ Writer.u32 (UInt32.ofNat objects.length) ++
    (objects.flatMap fun item => Writer.bytes item.canonicalBytes) ++
    Writer.fixed (d.mem.root C)

def checkpointFile (d : Disk) : Bytes :=
  let payload := d.checkpointPayload C
  checkpointMagic ++ Writer.u32 (UInt32.ofNat payload.length) ++ payload ++
    Writer.fixed (domainHash C "zephyr/state-checkpoint/v2" payload)

/-- `Checkpoint` without an error of the operating system: the renamed
file, then the emptied log. -/
def checkpoint (d : Disk) (dir : Dir) : Dir × Option Error :=
  if d.closed then (dir, some .persistenceClosed)
  else (⟨some (d.checkpointFile C), []⟩, none)

-- ==== opening

/-- The fields of a checkpoint payload. A foreign network is told from
corruption, so the network check is made on the value read. -/
def readCheckpoint (network : NetworkID) :
    Reader (UInt64 × List Object × Hash) := do
  let version ← Reader.u16
  liftM (refuse (version ≠ persistenceVersion) Error.persistenceCorrupt)
  let fileNetwork ← Reader.fixed
  liftM (refuse (fileNetwork ≠ network) Error.persistenceNetwork)
  let seq ← Reader.u64
  let count ← Reader.u32
  liftM (refuse (maxCheckpointObjects < count) Error.persistenceCorrupt)
  let objects ← readMany readStoredObject count.toNat
  let expectedRoot ← Reader.fixed
  return (seq, objects, expectedRoot)

/-- The payload between magic, length and digest. -/
def checkpointBody (raw : Bytes) : Except Error Bytes := do
  refuse (raw.length < 4 + 4 + 32 ∨ raw.take 4 ≠ checkpointMagic)
    .persistenceCorrupt
  let length := ofBe ((raw.drop 4).take 4)
  refuse (length = 0 ∨ maxCheckpointBytes < length ∨
    raw.length ≠ 8 + length + 32) .persistenceCorrupt
  let payload := (raw.drop 8).take length
  refuse ((domainHash C "zephyr/state-checkpoint/v2" payload).toList ≠
    raw.drop (8 + length)) .persistenceCorrupt
  return payload

/-- Replace every error but a foreign network by corruption. -/
def corruptUnlessNetwork : Error → Error
  | .persistenceNetwork => .persistenceNetwork
  | _ => .persistenceCorrupt

def parseCheckpoint (network : NetworkID) (payload : Bytes) :
    Except Error (UInt64 × List Object × Hash) :=
  match (do
      let fields ← readCheckpoint network
      Reader.done
      return fields : Reader _).run payload with
  | .ok (fields, _) => .ok fields
  | .error e => .error (corruptUnlessNetwork e)

/-- Store the objects of a checkpoint in an empty memory. -/
def restoreMemory (mem : Memory) (objects : List Object) :
    Except Error Memory :=
  if objects.isEmpty then .ok mem
  else match mem.apply C [] objects with
    | (mem, _, none) => .ok mem
    | (_, _, some _) => .error .persistenceCorrupt

def loadCheckpoint (d : Disk) (file : Option Bytes) : Except Error Disk :=
  match file with
  | none => .ok d
  | some raw => do
      let payload ← checkpointBody C raw
      let fields ← parseCheckpoint d.network payload
      let (seq, objects, expectedRoot) := fields
      let mem ← restoreMemory C d.mem objects
      refuse (mem.root C ≠ expectedRoot) .persistenceCorrupt
      return { d with
        mem := mem
        objects := applyObjects d.objects [] objects
        seq := seq }

end Disk

/-- What stands at the front of the log. -/
inductive WALRead where
  | eof
  /-- The file ends inside a record. -/
  | torn
  | corrupt
  | record (payload rest : Bytes)
  deriving DecidableEq

def nextRecord (data : Bytes) : WALRead :=
  if data.length = 0 then .eof
  else if data.length < 8 then .torn
  else if data.take 4 ≠ walMagic then .corrupt
  else
    let length := ofBe ((data.drop 4).take 4)
    if length = 0 ∨ maxWALRecordBytes < length then .corrupt
    else
      let body := data.drop 8
      if body.length < length then .torn
      else
        let payload := body.take length
        let tail := body.drop length
        if tail.length < 4 then .torn
        else if ofBe (tail.take 4) ≠ (crc32c payload).toNat then .corrupt
        else .record payload (tail.drop 4)

namespace Disk

variable (C : Crypto)

/-- Take one entry of the log: skip what the checkpoint covers, refuse a
gap, and apply the next delta. -/
def replayEntry (d : Disk) (e : WALEntry) : Except Error Disk := do
  refuse (e.network ≠ d.network) .persistenceNetwork
  if e.seq ≤ d.seq then return d
  else
    refuse (e.seq ≠ d.seq + 1) .persistenceCorrupt
    (d.prevalidate e.consumed e.created).mapError
      fun _ => .persistenceCorrupt
    match d.mem.apply C e.consumed e.created with
    | (_, _, some _) => throw .persistenceCorrupt
    | (mem, _, none) =>
      let d := { d with mem := mem }
      let d := d.applyMirror e.consumed e.created
      return { d with seq := e.seq }

end Disk

theorem nextRecord_length_lt {data payload rest : Bytes}
    (h : nextRecord data = .record payload rest) :
    rest.length < data.length := by
  unfold nextRecord at h
  simp only at h
  split at h
  · cases h
  split at h
  · cases h
  split at h
  · cases h
  split at h
  · cases h
  split at h
  · cases h
  split at h
  · cases h
  split at h
  · cases h
  · next hne _ _ _ _ _ =>
      obtain ⟨-, rfl⟩ := WALRead.record.inj h
      simp only [List.length_drop]
      omega

/-- The loop of `replayWAL`. The second result is the offset the log is
truncated to when its last record is torn. -/
def Disk.replayFrom (C : Crypto) (d : Disk) (offset : Nat) (data : Bytes) :
    Except Error (Disk × Option Nat) :=
  match h : nextRecord data with
  | .eof => .ok (d, none)
  | .torn => .ok (d, some offset)
  | .corrupt => .error .persistenceCorrupt
  | .record payload rest => do
      let e ← parseWALPayload payload
      let d ← d.replayEntry C e
      Disk.replayFrom C d (offset + (8 + payload.length + 4)) rest
termination_by data.length
decreasing_by exact nextRecord_length_lt h

/-- A disk together with its directory. -/
structure Store where
  disk : Disk
  dir : Dir

def openDisk (C : Crypto) (dir : Dir) (network : NetworkID) :
    Except Error Store := do
  refuse (IsZero32 network) .persistenceNetwork
  let d ← (newDisk network).loadCheckpoint C dir.checkpoint
  let (d, truncated) ← d.replayFrom C 0 dir.wal
  match truncated with
  | some offset => return ⟨d, { dir with wal := dir.wal.take offset }⟩
  | none => return ⟨d, dir⟩

-- ==== calls

/-- A call on an open store. -/
inductive Op where
  | apply (consumed : List ObjectID) (created : List Object)
  | checkpoint

/-- One call that meets no fault of the file system: the store after it,
or the error it returns. -/
def Store.step (C : Crypto) (s : Store) : Op → Except Error Store
  | .apply consumed created =>
    match s.disk.apply C s.dir .none consumed created with
    | ((d, dir), _, none) => .ok ⟨d, dir⟩
    | (_, _, some e) => .error e
  | .checkpoint =>
    match s.disk.checkpoint C s.dir with
    | (dir, none) => .ok ⟨s.disk, dir⟩
    | (_, some e) => .error e

/-- An `Apply` and what the file system does to its append. -/
structure FaultyApply where
  fault : AppendFault
  consumed : List ObjectID
  created : List Object

/-- One call whose append may fail, in a process that goes on: the store
after it and the error it returns. -/
def Store.applyFaulty (C : Crypto) (s : Store) (c : FaultyApply) :
    Store × Option Error :=
  let out := s.disk.apply C s.dir c.fault c.consumed c.created
  (⟨out.1.1, out.1.2⟩, out.2.2)

/-- The store after a row of calls, and those of them that returned
success, in order. -/
def Store.applyAll (C : Crypto) (s : Store) :
    List FaultyApply → Store × List FaultyApply
  | [] => (s, [])
  | c :: calls =>
    let out := s.applyFaulty C c
    let rest := Store.applyAll C out.1 calls
    (rest.1, if out.2.isNone then c :: rest.2 else rest.2)

end ZephyrChain.WorldState
