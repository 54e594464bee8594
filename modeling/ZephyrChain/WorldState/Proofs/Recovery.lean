/-
Crash recovery of the durable store. A run is any sequence of calls that
return success, crashes and reopenings included; a crash leaves one of
the directories of `CrashImage`. As long as every step of the run stays
within the limits of the reader, opening such a directory gives back the
acknowledged store, or the store after the call in flight when its
record is complete.

# The invariant

`Recoverable` says how a live disk and its files hang together: the
checkpoint loads to some base, the log is the log of readable entries,
and replaying them on the base gives the disk, all of it: memory, tree
and sequence number. Entries the checkpoint already covers may stand in
the log (a crash can fall between rename and truncation); they carry
sequence numbers the replay skips.

# Where it fails

The writer acknowledges more than the reader accepts. `WithinLimits`
names the three gaps: the number of consumed ids of a record, the number
of objects and the size of a checkpoint, and the last sequence number.
`recovery_fails_above_id_limit` opens a directory no crash ever touched
and gets an error.
-/
import ZephyrChain.WorldState.Proofs.Log

namespace ZephyrChain.WorldState

open Lib
open State (smtHash)

variable {C : Crypto} {net : NetworkID}

-- ==== sound disks

/-- A disk whose two copies of the objects and whose tree agree. -/
structure Sound (C : Crypto) (net : NetworkID) (d : Disk) : Prop where
  network : d.network = net
  opened : d.closed = false
  mirrors : Mirrors C d.mem
  objects : d.objects = d.mem.objects

/-- The disk after a delta. -/
def Disk.applied (C : Crypto) (d : Disk) (consumed : List ObjectID)
    (created : List Object) : Disk :=
  { d with
    mem := (d.mem.apply C consumed created).1
    objects := applyObjects d.objects consumed created
    seq := d.seq + 1 }

variable {d : Disk} {consumed : List ObjectID} {created : List Object}

theorem Sound.applied (hd : Sound C net d)
    (hv : ValidDelta d.objects consumed created) :
    Sound C net (d.applied C consumed created) := by
  have hv' := hv
  rw [hd.objects] at hv'
  obtain ⟨-, hm, ho⟩ := hd.mirrors.apply_valid hv'
  refine ⟨hd.network, hd.opened, hm, ?_⟩
  change applyObjects d.objects consumed created = _
  rw [hd.objects]
  exact ho.symm

/-- The log entry of a call. -/
def Disk.entry (d : Disk) (consumed : List ObjectID)
    (created : List Object) : WALEntry :=
  ⟨d.network, d.seq + 1, consumed, created⟩

variable {s : Store}
variable {s' : Store}

/-- What a successful `Apply` is: a valid delta within the writer's size
limit, logged and taken. -/
theorem Sound.step_apply_iff (hd : Sound C net s.disk) :
    s.step C (.apply consumed created) = .ok s' ↔
      ValidDelta s.disk.objects consumed created ∧
      (encodeWALPayload (s.disk.entry consumed created)).length ≤
        maxWALRecordBytes ∧
      s' = ⟨s.disk.applied C consumed created,
        ⟨s.dir.checkpoint, s.dir.wal ++
          walRecord (encodeWALPayload (s.disk.entry consumed created))⟩⟩ := by
  have hne : (encodeWALPayload (s.disk.entry consumed created)).length ≠ 0 := by
    rw [length_encodeWALPayload]
    omega
  rw [Store.step, Disk.apply, if_neg (by simp [hd.opened]), Disk.prevalidate]
  rcases validateDelta_cases s.disk.objects consumed created with
    ⟨hok, hv⟩ | ⟨e, he⟩
  · have hv' := hv
    rw [hd.objects] at hv'
    obtain ⟨happly, -, -⟩ := hd.mirrors.apply_valid hv'
    rw [hok, happly]
    simp only [appendWAL]
    by_cases hlen : maxWALRecordBytes <
        (encodeWALPayload (s.disk.entry consumed created)).length
    · have hlen' : maxWALRecordBytes < (encodeWALPayload
          ⟨s.disk.network, s.disk.seq + 1, consumed, created⟩).length := hlen
      rw [if_pos (Or.inr hlen')]
      simp only [reduceCtorEq, false_iff]
      intro h
      omega
    · have hcond : ¬ ((encodeWALPayload ⟨s.disk.network, s.disk.seq + 1,
          consumed, created⟩).length = 0 ∨ maxWALRecordBytes <
          (encodeWALPayload ⟨s.disk.network, s.disk.seq + 1,
            consumed, created⟩).length) := by
        intro h
        rcases h with h | h
        · exact hne h
        · exact hlen h
      rw [if_neg hcond]
      constructor
      · intro h
        exact ⟨hv, Nat.le_of_not_lt hlen, (Except.ok.inj h).symm⟩
      · rintro ⟨-, -, rfl⟩
        rfl
  · rw [he]
    simp only [reduceCtorEq, false_iff]
    intro h
    rw [validateDelta_eq_ok.2 h.1] at he
    cases he

theorem Sound.step_checkpoint_iff (hd : Sound C net s.disk) :
    s.step C .checkpoint = .ok s' ↔
      s' = ⟨s.disk, ⟨some (s.disk.checkpointFile C), []⟩⟩ := by
  rw [Store.step, Disk.checkpoint, if_neg (by simp [hd.opened])]
  constructor
  · intro h
    exact (Except.ok.inj h).symm
  · rintro rfl
    rfl

-- ==== checkpoint

variable {objects : Objects}

/-- Looking up a row of keys that are all stored under themselves gives
the row back. -/
theorem map_id_filterMap_lookup
    (hid : ∀ id o, objects.lookup id = some o → o.id = id)
    {keys : List ObjectID} (hkeys : ∀ k ∈ keys, k ∈ objects) :
    (keys.filterMap objects.lookup).map Object.id = keys := by
  induction keys with
  | nil => rfl
  | cons k keys ih =>
    obtain ⟨o, ho⟩ := Finmap.mem_iff.1 (hkeys k List.mem_cons_self)
    have ih := ih fun x hx => hkeys x (List.mem_cons_of_mem k hx)
    rw [List.filterMap_cons, ho]
    simp only [List.map_cons, ih, hid k o ho]

section SortedObjects

variable {objects : Objects}
  (hid : ∀ id o, objects.lookup id = some o → o.id = id)

include hid

theorem map_id_sortedObjects :
    (Disk.sortedObjects objects).map Object.id =
      objects.keys.sort Bytes32.Before := by
  refine map_id_filterMap_lookup hid fun k hk => ?_
  exact Finmap.mem_keys.1 ((Finset.mem_sort _).1 hk)

theorem length_sortedObjects :
    (Disk.sortedObjects objects).length = objects.keys.card := by
  rw [← List.length_map Object.id, map_id_sortedObjects hid,
    Finset.length_sort]

theorem nodup_sortedObjects :
    ((Disk.sortedObjects objects).map Object.id).Nodup := by
  rw [map_id_sortedObjects hid]
  exact Finset.sort_nodup _ _

omit hid in
theorem mem_sortedObjects {o : Object}
    (ho : o ∈ Disk.sortedObjects objects) :
    ∃ id, objects.lookup id = some o := by
  obtain ⟨id, -, h⟩ := List.mem_filterMap.1 ho
  exact ⟨id, h⟩

/-- Storing the sorted objects in an empty map rebuilds the map. -/
theorem applyObjects_sortedObjects :
    applyObjects ∅ [] (Disk.sortedObjects objects) = objects := by
  refine Finmap.ext_lookup fun id => ?_
  by_cases hmem : id ∈ (Disk.sortedObjects objects).map Object.id
  · obtain ⟨o, ho, rfl⟩ := List.mem_map.1 hmem
    obtain ⟨id', h'⟩ := mem_sortedObjects ho
    rw [lookup_applyObjects_created (nodup_sortedObjects hid) ho,
      hid id' o h', h']
  · have hnone : objects.lookup id = none := by
      rw [Finmap.lookup_eq_none]
      intro hin
      refine hmem ?_
      rw [map_id_sortedObjects hid]
      exact (Finset.mem_sort _).2 (Finmap.mem_keys.2 hin)
    rw [lookup_applyObjects_other hmem, hnone]
    simp

end SortedObjects

theorem Sound.stored (hd : Sound C net d) {id : ObjectID} {o : Object}
    (h : d.objects.lookup id = some o) : o.id = id ∧ o.Valid := by
  rw [hd.objects] at h
  exact hd.mirrors.stored id o h

theorem Sound.stored_id (hd : Sound C net d) :
    ∀ id o, d.objects.lookup id = some o → o.id = id :=
  fun _ _ h => (hd.stored h).1

/-- The reader's limits on a checkpoint. -/
def CheckpointReadable (C : Crypto) (d : Disk) : Prop :=
  d.objects.keys.card ≤ maxCheckpointObjects.toNat ∧
    (d.checkpointPayload C).length ≤ maxCheckpointBytes

/-- The fields of a checkpoint: sequence number, objects, root. -/
abbrev CheckpointFields := UInt64 × List Object × Hash

theorem exact_checkpoint (net : NetworkID) : Exact (Disk.readCheckpoint net)
    (fun f => Writer.u16 persistenceVersion ++ (Writer.fixed net ++
      (Writer.u64 f.1 ++ (Writer.u32 (UInt32.ofNat f.2.1.length) ++
        (storedObjects f.2.1 ++ Writer.fixed f.2.2)))))
    fun f => f.2.1.length ≤ maxCheckpointObjects.toNat ∧
      ∀ o ∈ f.2.1, o.Valid := by
  refine Exact.of_fields (
    .literal persistenceVersion Reader.exact_u16 trivial <|
    .literal net Reader.exact_fixed trivial <|
    .field Prod.fst Reader.exact_u64 fun _ =>
    Reader.row32 (fun f : CheckpointFields => f.2.1)
      (· ≤ maxCheckpointObjects.toNat) exact_storedObject
      (fun _ => UInt32.not_lt) (fun _ h => h) (by decide) fun _ =>
    .field (fun f : CheckpointFields => f.2.2) Reader.exact_fixed fun _ =>
    .pure fun f => ?_) ?_ ?_
  · obtain ⟨seq, objects, root⟩ := f
    simp [and_assoc]
  · simp [storedObjects]
  · simp

theorem length_checkpointMagic : checkpointMagic.length = 4 := by decide

/-- Magic, length and digest are found where the writer put them. -/
theorem checkpointBody_checkpointFile (d : Disk)
    (hlen : (d.checkpointPayload C).length ≤ maxCheckpointBytes) :
    Disk.checkpointBody C (d.checkpointFile C) =
      .ok (d.checkpointPayload C) := by
  have hpos : (d.checkpointPayload C).length ≠ 0 := by
    simp [Disk.checkpointPayload]
  simp only [Disk.checkpointFile]
  generalize d.checkpointPayload C = payload at hlen hpos
  have hshort : payload.length < 2 ^ 32 :=
    Nat.lt_of_le_of_lt hlen (by decide)
  obtain ⟨hrawlen, hmagic, hlength, hpayload, hdigest⟩ := frame_fields
    (domainHash C "zephyr/state-checkpoint/v2" payload)
    length_checkpointMagic hshort
  unfold Disk.checkpointBody
  rw [refuse_of_not, ok_bind]
  · simp only [hlength, hrawlen, hpayload, hdigest]
    rw [refuse_of_not, ok_bind, refuse_of_not, ok_bind]
    · rfl
    · simp
    · omega
  · rw [hrawlen, hmagic]
    simp only [ne_eq, not_true_eq_false, or_false, not_lt]
    omega

theorem Sound.parseCheckpoint_payload (hd : Sound C net d)
    (hr : CheckpointReadable C d) :
    Disk.parseCheckpoint net (d.checkpointPayload C) =
      .ok (d.seq, Disk.sortedObjects d.objects, d.mem.root C) := by
  have hlen := length_sortedObjects hd.stored_id
  have hread : (Disk.readCheckpoint net).run (d.checkpointPayload C) =
      .ok ((d.seq, Disk.sortedObjects d.objects, d.mem.root C), []) := by
    refine (exact_checkpoint net _ _ _).2 ⟨?_, hlen ▸ hr.1, ?_⟩
    · simp [Disk.checkpointPayload, storedObjects, hd.network]
    · intro o ho
      obtain ⟨id, h⟩ := mem_sortedObjects ho
      exact (hd.stored h).2
  rw [Disk.parseCheckpoint, StateT.run_bind, hread]
  rfl

/-- The memory rebuilt from the sorted objects is the disk's memory. -/
theorem Sound.restoreMemory_sortedObjects (hd : Sound C net d) :
    Disk.restoreMemory C newMemory (Disk.sortedObjects d.objects) =
      .ok d.mem := by
  have hid := hd.stored_id
  have hobjects := applyObjects_sortedObjects hid
  have hv : ValidDelta newMemory.objects []
      (Disk.sortedObjects d.objects) := by
    refine ⟨List.nodup_nil, ?_, ?_, nodup_sortedObjects hid, ?_⟩
    · intro id hin
      cases hin
    · intro o ho
      obtain ⟨id, h⟩ := mem_sortedObjects ho
      exact (hd.stored h).2
    · intro o _ hin
      exact absurd hin Finmap.notMem_empty
  obtain ⟨happly, hm, ho⟩ := mirrors_newMemory.apply_valid (C := C) hv
  have hrebuilt : (newMemory.apply C []
      (Disk.sortedObjects d.objects)).1 = d.mem := by
    refine hm.ext hd.mirrors ?_
    rw [ho, ← hd.objects]
    exact hobjects
  unfold Disk.restoreMemory
  split
  case isTrue hempty =>
    have hnil := List.isEmpty_iff.1 hempty
    rw [hnil] at hobjects
    have hnew : newMemory = d.mem := by
      refine mirrors_newMemory.ext hd.mirrors ?_
      rw [← hd.objects, ← hobjects]
      rfl
    rw [hnew]
  case isFalse =>
    rw [happly, hrebuilt]

/-- A readable checkpoint loads to the disk it was taken of. -/
theorem Sound.loadCheckpoint_checkpointFile (hd : Sound C net d)
    (hr : CheckpointReadable C d) :
    (newDisk net).loadCheckpoint C (some (d.checkpointFile C)) =
      .ok d := by
  have hid := hd.stored_id
  have hnet : (newDisk net).network = net := rfl
  have hnew : (newDisk net).mem = newMemory := rfl
  rw [Disk.loadCheckpoint, checkpointBody_checkpointFile d hr.2, ok_bind,
    hnet, hd.parseCheckpoint_payload hr, ok_bind]
  simp only
  rw [hnew, hd.restoreMemory_sortedObjects, ok_bind,
    refuse_of_not _ (fun hne => hne rfl), ok_bind]
  have hobjects : applyObjects (newDisk net).objects []
      (Disk.sortedObjects d.objects) = d.objects :=
    applyObjects_sortedObjects hid
  rw [hobjects]
  have h1 := hd.network
  have h2 := hd.opened
  cases d
  simp only at h1 h2
  subst h1 h2
  rfl

-- ==== the runs

/-- The limits of the reader, as a condition on one call and the store it
is made on. -/
def WithinLimits (C : Crypto) (s : Store) : Op → Prop
  | .apply consumed _ =>
    consumed.length ≤ maxWALRecordIDs.toNat ∧ s.disk.seq + 1 ≠ 0
  | .checkpoint => CheckpointReadable C s.disk

/-- The directories a crash can leave of a store, each with the disk that
recovery has to give back. `P` is asked of a call in flight whose effect
is complete on disk. -/
inductive CrashImage (C : Crypto) (P : Store → Op → Prop) (s : Store) :
    Dir → Disk → Prop
  /-- Nothing was in flight. -/
  | idle : CrashImage C P s s.dir s.disk
  /-- An `Apply` was in flight, and the log is cut anywhere inside or
  behind its record. -/
  | applying {consumed : List ObjectID} {created : List Object}
      {s' : Store} (cut : Nat)
      (hstep : s.step C (.apply consumed created) = .ok s')
      (hcut : s.dir.wal.length ≤ cut)
      (hP : s'.dir.wal.length ≤ cut → P s (.apply consumed created)) :
      CrashImage C P s { s'.dir with wal := s'.dir.wal.take cut }
        (if s'.dir.wal.length ≤ cut then s'.disk else s.disk)
  /-- A `Checkpoint` was in flight: renamed, the log not yet emptied. -/
  | renamed {s' : Store} (hstep : s.step C .checkpoint = .ok s')
      (hP : P s .checkpoint) :
      CrashImage C P s { s'.dir with wal := s.dir.wal } s.disk

/-- The stores reached from an empty directory by calls that return
success, with any crashes and reopenings between them. `P` holds of every
call. -/
inductive Run (C : Crypto) (net : NetworkID) (P : Store → Op → Prop) :
    Store → Prop
  | opened {s : Store} (h : openDisk C Dir.empty net = .ok s) :
      Run C net P s
  | step {s s' : Store} (op : Op) (hs : Run C net P s) (hP : P s op)
      (h : s.step C op = .ok s') : Run C net P s'
  | reopened {s s' : Store} {dir : Dir} {d : Disk} (hs : Run C net P s)
      (hcrash : CrashImage C P s dir d) (h : openDisk C dir net = .ok s') :
      Run C net P s'

-- ==== the invariant

/-- How a disk and its files hang together: `entries` are the log, and
replaying them on the checkpoint gives the disk. -/
structure Recoverable (C : Crypto) (net : NetworkID) (s : Store)
    (base : Disk) (entries : List WALEntry) : Prop where
  network : net ≠ Bytes32.zero
  sound : Sound C net s.disk
  loads : (newDisk net).loadCheckpoint C s.dir.checkpoint = .ok base
  log : s.dir.wal = logOf entries
  readable : ∀ e ∈ entries, Readable e
  known : ∀ e ∈ entries, e.network = net ∧ e.seq ≤ s.disk.seq
  replays : entries.foldlM (Disk.replayEntry C) base = .ok s.disk

variable {base : Disk} {entries : List WALEntry} {n : Nat}

/-- Opening a directory whose log is readable entries and a torn rest. -/
theorem openDisk_torn {checkpoint : Option Bytes}
    (hnet : net ≠ Bytes32.zero)
    (hload : (newDisk net).loadCheckpoint C checkpoint = .ok base)
    (hread : ∀ e ∈ entries, Readable e)
    (hreplay : entries.foldlM (Disk.replayEntry C) base = .ok d)
    {payload : Bytes} (hw : Writable payload)
    (hn : n < (walRecord payload).length) :
    openDisk C ⟨checkpoint, logOf entries ++ (walRecord payload).take n⟩
      net = .ok ⟨d, ⟨checkpoint, logOf entries⟩⟩ := by
  rw [openDisk, refuse_of_not _ hnet, ok_bind, hload, ok_bind,
    replayFrom_entries C entries hread, hreplay, ok_bind]
  by_cases h0 : n = 0
  · subst h0
    rw [List.take_zero, replayFrom_nil, ok_bind, List.append_nil]
    rfl
  · rw [replayFrom_torn C d _ hw h0 hn, ok_bind, Nat.zero_add]
    simp only [List.take_left]
    rfl

/-- Opening a directory whose log is readable entries. -/
theorem openDisk_entries {checkpoint : Option Bytes}
    (hnet : net ≠ Bytes32.zero)
    (hload : (newDisk net).loadCheckpoint C checkpoint = .ok base)
    (hread : ∀ e ∈ entries, Readable e)
    (hreplay : entries.foldlM (Disk.replayEntry C) base = .ok d) :
    openDisk C ⟨checkpoint, logOf entries⟩ net =
      .ok ⟨d, ⟨checkpoint, logOf entries⟩⟩ := by
  have hlog := replayFrom_entries C entries hread base 0 []
  rw [List.append_nil, hreplay, ok_bind, replayFrom_nil] at hlog
  rw [openDisk, refuse_of_not _ hnet, ok_bind, hload, ok_bind, hlog, ok_bind]
  rfl

/-- The store an empty directory opens to. -/
def newStore (net : NetworkID) : Store := ⟨newDisk net, Dir.empty⟩

theorem openDisk_empty (hnet : net ≠ Bytes32.zero) :
    openDisk C Dir.empty net = .ok (newStore net) := by
  have hnil : ∀ e ∈ ([] : List WALEntry), Readable e := by
    intro e he
    cases he
  change openDisk C ⟨none, logOf []⟩ net = _
  rw [openDisk_entries hnet rfl hnil rfl]
  rfl

theorem sound_newDisk : Sound C net (newDisk net) :=
  ⟨rfl, rfl, mirrors_newMemory, rfl⟩

theorem Recoverable.reopens (h : Recoverable C net s base entries) :
    openDisk C s.dir net = .ok s := by
  have hopen := openDisk_entries h.network h.loads h.readable h.replays
  rw [← h.log] at hopen
  exact hopen

/-- A sequence number that does not wrap grows. -/
theorem toNat_succ {x : UInt64} (h : x + 1 ≠ 0) :
    (x + 1).toNat = x.toNat + 1 := by
  have hlt := x.toNat_lt
  have hne : (x + 1).toNat ≠ 0 := by
    intro h0
    exact h (UInt64.toNat_inj.1 h0)
  rw [UInt64.toNat_add] at hne ⊢
  simp only [UInt64.reduceToNat] at hne ⊢
  omega

/-- The next entry of a disk is taken by the replay as it was by the
call. -/
theorem Sound.replayEntry_entry (hd : Sound C net d)
    (hv : ValidDelta d.objects consumed created) (hseq : d.seq + 1 ≠ 0) :
    d.replayEntry C (d.entry consumed created) =
      .ok (d.applied C consumed created) := by
  have hnext : ¬ (d.entry consumed created).seq ≤ d.seq := by
    change ¬ d.seq + 1 ≤ d.seq
    rw [UInt64.le_iff_toNat_le, toNat_succ hseq]
    omega
  have hv' := hv
  rw [hd.objects] at hv'
  obtain ⟨happly, -, -⟩ := hd.mirrors.apply_valid hv'
  have hval : d.prevalidate (d.entry consumed created).consumed
      (d.entry consumed created).created = .ok () :=
    validateDelta_eq_ok.2 hv
  have hmem : d.mem.apply C (d.entry consumed created).consumed
      (d.entry consumed created).created = _ := happly
  rw [Disk.replayEntry, refuse_of_not _ (fun hne => hne rfl), ok_bind,
    if_neg hnext, refuse_of_not _ (fun hne => hne rfl), ok_bind, hval,
    hmem]
  rfl

/-- Entries a checkpoint covers are skipped. -/
theorem replayEntries_skip (hnet : d.network = net)
    (h : ∀ e ∈ entries, e.network = net ∧ e.seq ≤ d.seq) :
    entries.foldlM (Disk.replayEntry C) d = .ok d := by
  induction entries with
  | nil => rfl
  | cons e entries ih =>
    obtain ⟨hn, hs⟩ := h e List.mem_cons_self
    have hskip : d.replayEntry C e = .ok d := by
      rw [Disk.replayEntry, refuse_of_not _ (by simp [hn, hnet]), ok_bind,
        if_pos hs]
      rfl
    rw [List.foldlM_cons, hskip, ok_bind]
    exact ih fun x hx => h x (List.mem_cons_of_mem e hx)

/-- One call that stays within the limits keeps the invariant. -/
theorem Recoverable.step (h : Recoverable C net s base entries) {op : Op}
    (hl : WithinLimits C s op) (hs : s.step C op = .ok s') :
    ∃ base' entries', Recoverable C net s' base' entries' := by
  cases op with
  | apply consumed created =>
    obtain ⟨hv, hsize, rfl⟩ := h.sound.step_apply_iff.1 hs
    obtain ⟨hids, hseq⟩ := hl
    refine ⟨base, entries ++ [s.disk.entry consumed created], ?_⟩
    exact
      { network := h.network
        sound := h.sound.applied hv
        loads := h.loads
        log := by
          rw [logOf_append, logOf_singleton, ← h.log]
        readable := by
          exact forall_mem_concat h.readable ⟨hseq, hids, hv.valid, hsize⟩
        known := by
          have hle : s.disk.seq ≤ s.disk.seq + 1 := by
            rw [UInt64.le_iff_toNat_le, toNat_succ hseq]
            omega
          refine forall_mem_concat (fun e he => ?_)
            ⟨h.sound.network, UInt64.le_refl _⟩
          obtain ⟨hn, hk⟩ := h.known e he
          exact ⟨hn, UInt64.le_trans hk hle⟩
        replays := by
          rw [List.foldlM_append, h.replays, ok_bind, List.foldlM_cons,
            h.sound.replayEntry_entry hv hseq, ok_bind]
          rfl }
  | checkpoint =>
    obtain rfl := h.sound.step_checkpoint_iff.1 hs
    refine ⟨s.disk, [], ?_⟩
    exact
      { network := h.network
        sound := h.sound
        loads := h.sound.loadCheckpoint_checkpointFile hl
        log := rfl
        readable := by
          intro e he
          cases he
        known := by
          intro e he
          cases he
        replays := rfl }

/-- Recovery from one crash, and the invariant it leaves. -/
theorem Recoverable.crash (h : Recoverable C net s base entries)
    {dir : Dir} (hcrash : CrashImage C (WithinLimits C) s dir d) :
    ∃ dir' base' entries', openDisk C dir net = .ok ⟨d, dir'⟩ ∧
      Recoverable C net ⟨d, dir'⟩ base' entries' := by
  cases hcrash with
  | idle => exact ⟨s.dir, base, entries, h.reopens, h⟩
  | @applying consumed created s' cut hstep hcut hP =>
    by_cases hall : s'.dir.wal.length ≤ cut
    · -- the record is complete: recovery takes the call in flight
      obtain ⟨base', entries', h'⟩ := h.step (hP hall) hstep
      rw [if_pos hall, List.take_of_length_le hall]
      exact ⟨s'.dir, base', entries', h'.reopens, h'⟩
    · rw [if_neg hall]
      obtain ⟨hv, hsize, rfl⟩ := h.sound.step_apply_iff.1 hstep
      simp only [List.length_append, not_le] at hall
      have hw : Writable
          (encodeWALPayload (s.disk.entry consumed created)) := by
        refine ⟨?_, hsize⟩
        rw [length_encodeWALPayload]
        omega
      have hopen := openDisk_torn h.network h.loads h.readable h.replays
        hw (n := cut - s.dir.wal.length) (by omega)
      simp only [List.take_append, List.take_of_length_le hcut]
      rw [← h.log] at hopen
      exact ⟨s.dir, base, entries, hopen, h⟩
  | renamed hstep hP =>
    obtain rfl := h.sound.step_checkpoint_iff.1 hstep
    have hload := h.sound.loadCheckpoint_checkpointFile hP
    have hskip := replayEntries_skip (C := C) h.sound.network h.known
    have hopen := openDisk_entries h.network hload h.readable hskip
    rw [← h.log] at hopen
    refine ⟨_, s.disk, entries, hopen, ?_⟩
    exact ⟨h.network, h.sound, hload, h.log, h.readable, h.known, hskip⟩

/-- Every run that stays within the limits keeps the invariant. -/
theorem Run.recoverable (hs : Run C net (WithinLimits C) s) :
    ∃ base entries, Recoverable C net s base entries := by
  induction hs with
  | @opened s h =>
    have hnet : net ≠ Bytes32.zero := by
      rintro rfl
      simp [openDisk, refuse_of] at h
    rw [openDisk_empty hnet] at h
    obtain rfl := Except.ok.inj h
    refine ⟨newDisk net, [], hnet, sound_newDisk, rfl, rfl, ?_, ?_, rfl⟩
    · intro e he
      cases he
    · intro e he
      cases he
  | step op _ hP h ih =>
    obtain ⟨base, entries, hr⟩ := ih
    exact hr.step hP h
  | reopened _ hcrash h ih =>
    obtain ⟨base, entries, hr⟩ := ih
    obtain ⟨dir', base', entries', hopen, hr'⟩ := hr.crash hcrash
    rw [hopen] at h
    obtain rfl := Except.ok.inj h
    exact ⟨base', entries', hr'⟩

/-- In every run whose calls stay within the reader's limits, opening the
directory any crash leaves gives back the acknowledged disk, objects,
tree and sequence number, or the disk after the call in flight when its
record is complete. -/
theorem crash_recovery_within_limits {s : Store}
    (hs : Run C net (WithinLimits C) s) {dir : Dir} {d : Disk}
    (hcrash : CrashImage C (WithinLimits C) s dir d) :
    ∃ dir', openDisk C dir net = .ok ⟨d, dir'⟩ := by
  obtain ⟨base, entries, hr⟩ := hs.recoverable
  obtain ⟨dir', -, -, hopen, -⟩ := hr.crash hcrash
  exact ⟨dir', hopen⟩

/-- A network for concrete runs. -/
def sampleNetwork : NetworkID := Vector.replicate 32 7

/-- With the call `apply [] [sampleObject]` in flight on an empty store
and its record cut after ten bytes, the directory opens to the empty
store. -/
theorem crash_recovery_within_limits_torn :
    ∃ s' dir', (newStore sampleNetwork).step truncatingCrypto
        (.apply [] [sampleObject]) = .ok s' ∧
      openDisk truncatingCrypto { s'.dir with wal := s'.dir.wal.take 10 }
        sampleNetwork = .ok ⟨newDisk sampleNetwork, dir'⟩ := by
  have hnet : sampleNetwork ≠ Bytes32.zero := by decide
  have hsound : Sound truncatingCrypto sampleNetwork
      (newStore sampleNetwork).disk := sound_newDisk
  have hv : ValidDelta (newStore sampleNetwork).disk.objects []
      [sampleObject] :=
    validateDelta_eq_ok.1 (by decide)
  have hsize : (encodeWALPayload ((newStore sampleNetwork).disk.entry []
      [sampleObject])).length = 132 := by
    rw [length_encodeWALPayload, length_storedObjects]
    rfl
  have hstep := hsound.step_apply_iff.2
    ⟨hv, Nat.le_trans (Nat.le_of_eq hsize) (by decide), rfl⟩
  have hcut : ¬ (newStore sampleNetwork).dir.wal.length +
      (walRecord (encodeWALPayload ((newStore sampleNetwork).disk.entry []
        [sampleObject]))).length ≤ 10 := by
    rw [length_walRecord, hsize]
    decide
  rw [← List.length_append] at hcut
  obtain ⟨dir', hopen⟩ := crash_recovery_within_limits
    (Run.opened (openDisk_empty hnet))
    (CrashImage.applying 10 hstep (Nat.zero_le 10)
      fun hle => absurd hle hcut)
  rw [if_neg hcut] at hopen
  exact ⟨_, dir', hstep, hopen⟩

-- ==== above the limits

/-- A call that consumes more ids than the reader's limit is acknowledged
and leaves a directory that does not open. -/
theorem Recoverable.overfull (h : Recoverable C net s base entries)
    (hids : maxWALRecordIDs.toNat < consumed.length)
    (hs : s.step C (.apply consumed created) = .ok s') :
    openDisk C s'.dir net = .error .persistenceCorrupt := by
  obtain ⟨-, hsize, rfl⟩ := h.sound.step_apply_iff.1 hs
  simp only
  rw [h.log, openDisk, refuse_of_not _ h.network, ok_bind, h.loads, ok_bind,
    replayFrom_entries C entries h.readable, h.replays, ok_bind,
    replayFrom_overfull C s.disk _ hids hsize, error_bind]

/-- The object number `n`. -/
def numberedObject (n : Nat) : Object :=
  ⟨Bytes32.copy32 (beBytes 32 (n + 1)), 1, Vector.replicate 32 2, .coin, []⟩

/-- `n` objects numbered from `start`. -/
def numberedObjects (start n : Nat) : List Object :=
  (List.range n).map fun i => numberedObject (start + i)

theorem numberedObject_id_inj {m : Nat} (hm : m < 2000000)
    (hn : n < 2000000) (h : (numberedObject m).id = (numberedObject n).id) :
    m = n := by
  have hbytes := congrArg Vector.toList h
  simp only [numberedObject] at hbytes
  rw [Bytes32.toList_copy32 (length_beBytes _ _),
    Bytes32.toList_copy32 (length_beBytes _ _)] at hbytes
  have hbig : 2000001 < 256 ^ 32 := by decide
  have heq := beBytes_inj (by omega) (by omega) hbytes
  omega

theorem numberedObject_valid (hn : n < 2000000) :
    (numberedObject n).Valid := by
  rw [Object.valid_iff]
  have hversion : (1 : UInt64) ≠ 0 := by decide
  have howner : (Vector.replicate 32 2 : AccountID) ≠ Bytes32.zero := by
    decide
  refine ⟨?_, hversion, Kind.noConfusion, Nat.zero_le _, Or.inr howner⟩
  intro h0
  have hbytes := congrArg Vector.toList h0
  simp only [numberedObject] at hbytes
  rw [Bytes32.toList_copy32 (length_beBytes _ _)] at hbytes
  have hval := congrArg ofBe hbytes
  have hbig : 2000001 < 256 ^ 32 := by decide
  have hzero : ofBe Bytes32.zero.toList = 0 := by decide
  rw [ofBe_beBytes_of_lt (by omega), hzero] at hval
  omega

theorem length_storedObjects_numbered (start n : Nat) :
    (storedObjects (numberedObjects start n)).length = 82 * n := by
  rw [length_storedObjects, numberedObjects, List.map_map]
  change ((List.range n).map fun _ => 82).sum = 82 * n
  rw [List.map_const', List.length_range, List.sum_replicate, smul_eq_mul,
    Nat.mul_comm]

variable {start : Nat}

theorem nodup_numberedObjects (h : start + n ≤ 2000000) :
    ((numberedObjects start n).map Object.id).Nodup := by
  rw [numberedObjects, List.map_map]
  refine List.Nodup.map_on ?_ List.nodup_range
  intro i hi j hj hij
  have hi := List.mem_range.1 hi
  have hj := List.mem_range.1 hj
  have heq := numberedObject_id_inj (m := start + i) (n := start + j)
    (by omega) (by omega) hij
  omega

theorem mem_numberedObjects {o : Object} :
    o ∈ numberedObjects start n ↔
      ∃ i, i < n ∧ numberedObject (start + i) = o := by
  simp [numberedObjects]

/-- Creating numbered objects that are not there yet is valid. -/
theorem validDelta_numbered (h : start + n ≤ 2000000)
    (hfresh : ∀ i, i < n → (numberedObject (start + i)).id ∉ objects) :
    ValidDelta objects [] (numberedObjects start n) where
  nodup := List.nodup_nil
  live := by
    intro id hin
    cases hin
  valid := by
    intro o ho
    obtain ⟨i, hi, rfl⟩ := mem_numberedObjects.1 ho
    exact numberedObject_valid (by omega)
  distinct := nodup_numberedObjects h
  fresh := by
    intro o ho hin
    obtain ⟨i, hi, rfl⟩ := mem_numberedObjects.1 ho
    exact absurd hin (hfresh i hi)

/-- Two calls that create `n` objects each and one that consumes them
all. -/
def createAndConsumeAll (n : Nat) : List Op :=
  [.apply [] (numberedObjects 0 n), .apply [] (numberedObjects n n),
    .apply ((numberedObjects 0 (n + n)).map Object.id) []]

/-- The objects after the first `k` of the creating calls, on one id. -/
theorem mem_applyObjects_numbered {i : Nat} (h : start + n ≤ 2000000)
    (hi : i < 2000000) :
    (numberedObject i).id ∈ applyObjects objects []
        (numberedObjects start n) ↔
      (start ≤ i ∧ i < start + n) ∨ (numberedObject i).id ∈ objects := by
  by_cases hin : start ≤ i ∧ i < start + n
  · have hmem : numberedObject i ∈ numberedObjects start n := by
      refine mem_numberedObjects.2 ⟨i - start, by omega, ?_⟩
      rw [Nat.add_sub_cancel' hin.1]
    have hlook : (applyObjects objects [] (numberedObjects start n)).lookup
        (numberedObject i).id = some (numberedObject i) :=
      lookup_applyObjects_created (nodup_numberedObjects h) hmem
    simp only [hin, and_self, true_or, iff_true]
    exact Finmap.mem_iff.2 ⟨_, hlook⟩
  · have hnot : (numberedObject i).id ∉
        (numberedObjects start n).map Object.id := by
      intro hmem
      obtain ⟨o, ho, hid⟩ := List.mem_map.1 hmem
      obtain ⟨j, hj, rfl⟩ := mem_numberedObjects.1 ho
      have heq := numberedObject_id_inj (by omega) hi hid
      omega
    rw [Finmap.mem_iff, Finmap.mem_iff, lookup_applyObjects_other hnot]
    simp [hin]

/-- A call that creates numbered objects succeeds within the limits. -/
theorem Run.create_numbered (hs : Run C net (WithinLimits C) s)
    (start n : Nat) (hn : start + n ≤ 2000000)
    (hsize : 50 + 82 * n ≤ maxWALRecordBytes) (hseq : s.disk.seq + 1 ≠ 0)
    (hfresh : ∀ i, i < n →
      (numberedObject (start + i)).id ∉ s.disk.objects) :
    ∃ s', s.step C (.apply [] (numberedObjects start n)) = .ok s' ∧
      Run C net (WithinLimits C) s' ∧
      s'.disk.objects =
        applyObjects s.disk.objects [] (numberedObjects start n) ∧
      s'.disk.seq = s.disk.seq + 1 := by
  obtain ⟨base, entries, hr⟩ := hs.recoverable
  have hv := validDelta_numbered hn hfresh
  have hlen : (encodeWALPayload (s.disk.entry []
      (numberedObjects start n))).length ≤ maxWALRecordBytes := by
    rw [length_encodeWALPayload]
    simp only [Disk.entry, List.length_nil, length_storedObjects_numbered]
    omega
  have hstep := hr.sound.step_apply_iff.2 ⟨hv, hlen, rfl⟩
  have hlimits : WithinLimits C s (.apply [] (numberedObjects start n)) :=
    ⟨Nat.zero_le _, hseq⟩
  exact ⟨_, hstep, hs.step _ hlimits hstep, rfl, rfl⟩

/-- With enough objects to pass the reader's limit, and few enough for
the writer's, the three calls succeed and the directory does not open. -/
theorem createAndConsumeAll_overfull (hnet : net ≠ Bytes32.zero)
    (hn : n + n ≤ 2000000) (hids : maxWALRecordIDs.toNat < n + n)
    (hcreate : 50 + 82 * n ≤ maxWALRecordBytes)
    (hconsume : 50 + 32 * (n + n) ≤ maxWALRecordBytes) :
    ∃ s, (createAndConsumeAll n).foldlM (Store.step C) (newStore net) =
        .ok s ∧
      openDisk C s.dir net = .error .persistenceCorrupt := by
  have hrun : Run C net (WithinLimits C) (newStore net) :=
    Run.opened (openDisk_empty hnet)
  have hseq0 : (newStore net).disk.seq = 0 := rfl
  obtain ⟨s1, hstep1, hrun1, hobj1, hseq1⟩ := hrun.create_numbered 0 n
    (by omega) hcreate (by rw [hseq0]; decide)
    fun i _ => Finmap.notMem_empty
  have hmem1 : ∀ i, i < 2000000 →
      ((numberedObject i).id ∈ s1.disk.objects ↔ i < n) := by
    intro i hi
    rw [hobj1, mem_applyObjects_numbered (by omega) hi]
    have hempty : (numberedObject i).id ∉ (newStore net).disk.objects :=
      Finmap.notMem_empty
    simp only [hempty, or_false]
    omega
  obtain ⟨s2, hstep2, hrun2, hobj2, hseq2⟩ := hrun1.create_numbered n n
    hn hcreate (by rw [hseq1, hseq0]; decide)
    fun i hi hin => by
      have := (hmem1 (n + i) (by omega)).1 hin
      omega
  -- the last call passes the writer's checks
  obtain ⟨base, entries, hr⟩ := hrun2.recoverable
  have hv : ValidDelta s2.disk.objects
      ((numberedObjects 0 (n + n)).map Object.id) [] := by
    refine ⟨nodup_numberedObjects (by omega), ?_, ?_, List.nodup_nil, ?_⟩
    · intro id hid
      obtain ⟨o, ho, rfl⟩ := List.mem_map.1 hid
      obtain ⟨i, hi, rfl⟩ := mem_numberedObjects.1 ho
      rw [hobj2, mem_applyObjects_numbered hn (by omega), hmem1 _ (by omega)]
      omega
    · intro o ho
      cases ho
    · intro o ho
      cases ho
  have hcount : ((numberedObjects 0 (n + n)).map Object.id).length =
      n + n := by
    rw [List.length_map, numberedObjects, List.length_map, List.length_range]
  have hlen : (encodeWALPayload (s2.disk.entry
      ((numberedObjects 0 (n + n)).map Object.id) [])).length ≤
      maxWALRecordBytes := by
    rw [length_encodeWALPayload]
    simp only [Disk.entry, hcount, length_storedObjects, List.map_nil,
      List.sum_nil]
    omega
  have hstep3 := hr.sound.step_apply_iff.2 ⟨hv, hlen, rfl⟩
  refine ⟨_, ?_, hr.overfull (by rw [hcount]; exact hids) hstep3⟩
  rw [createAndConsumeAll, List.foldlM_cons, hstep1, ok_bind,
    List.foldlM_cons, hstep2, ok_bind, List.foldlM_cons, hstep3, ok_bind]
  rfl

/-- On an empty directory, three calls that succeed leave a log `OpenDisk`
refuses: 500,001 objects are created, 500,001 more, and all of them are
consumed. -/
theorem recovery_fails_above_id_limit :
    openDisk truncatingCrypto Dir.empty sampleNetwork =
        .ok (newStore sampleNetwork) ∧
    ∃ s, (createAndConsumeAll 500001).foldlM (Store.step truncatingCrypto)
        (newStore sampleNetwork) = .ok s ∧
      openDisk truncatingCrypto s.dir sampleNetwork =
        .error .persistenceCorrupt :=
  ⟨openDisk_empty (by decide), createAndConsumeAll_overfull (by decide)
    (by decide) (by decide) (by decide) (by decide)⟩

end ZephyrChain.WorldState
