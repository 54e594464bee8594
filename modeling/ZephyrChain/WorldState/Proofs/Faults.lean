/-
Appends that fail in a process that goes on. `Apply` returns an error
and leaves the disk in memory as it was, but neither the bytes that
reached the log nor the position they were written at are taken back.

# What holds

As long as a failing append leaves no byte behind, reopening the
directory gives the disk that the acknowledged calls produce, in order
(`reopen_acknowledged`). The reader's limits of the recovery proof are
part of the condition here too.

# Where it fails

A sync that fails behind a complete record leaves a record whose
sequence number the next call uses again. The replay takes the first of
the two and skips the second, so the refused delta becomes durable and
the acknowledged one is lost (`Recoverable.sync_failure`).
-/
import ZephyrChain.WorldState.Proofs.Recovery

namespace ZephyrChain.WorldState

open Lib

variable {C : Crypto} {net : NetworkID}

-- ==== one call

/-- The bytes of a record that reach the log. -/
def AppendFault.left (record : Bytes) : AppendFault → Bytes
  | .none => record
  | .cutAt n => record.take n
  | .syncFails => record

/-- The error of an append that was begun. -/
def AppendFault.error : AppendFault → Option Error
  | .none => Option.none
  | .cutAt _ => some .io
  | .syncFails => some .io

/-- The log record of a call. -/
def Store.record (s : Store) (c : FaultyApply) : Bytes :=
  walRecord (encodeWALPayload (s.disk.entry c.consumed c.created))

/-- A call whose append is begun: a valid delta within the writer's size
limit. -/
def Store.Loggable (s : Store) (c : FaultyApply) : Prop :=
  ValidDelta s.disk.objects c.consumed c.created ∧
    (encodeWALPayload (s.disk.entry c.consumed c.created)).length ≤
      maxWALRecordBytes

/-- What a call can do: it is refused and changes nothing, its append
fails and leaves some bytes, or it is logged and taken. -/
inductive Called (C : Crypto) (s : Store) (c : FaultyApply) :
    Store → Option Error → Prop
  | refused (e : Error) (h : ¬ s.Loggable c) : Called C s c s (some e)
  | failed (h : s.Loggable c) (hfault : c.fault ≠ .none) :
      Called C s c ⟨s.disk, { s.dir with
        wal := s.dir.wal ++ c.fault.left (s.record c) }⟩ (some .io)
  | taken (h : s.Loggable c) (hfault : c.fault = .none) :
      Called C s c ⟨s.disk.applied C c.consumed c.created, { s.dir with
        wal := s.dir.wal ++ s.record c }⟩ none

/-- The append of an entry, fault by fault. -/
theorem appendWAL_entry (wal : Bytes) (e : WALEntry) (fault : AppendFault) :
    (maxWALRecordBytes < (encodeWALPayload e).length ∧
      appendWAL wal (encodeWALPayload e) fault =
        (wal, some .persistenceCorrupt)) ∨
    ((encodeWALPayload e).length ≤ maxWALRecordBytes ∧
      appendWAL wal (encodeWALPayload e) fault =
        (wal ++ fault.left (walRecord (encodeWALPayload e)),
          fault.error)) := by
  have hne : (encodeWALPayload e).length ≠ 0 := by
    rw [length_encodeWALPayload]
    omega
  by_cases hlen : maxWALRecordBytes < (encodeWALPayload e).length
  · left
    refine ⟨hlen, ?_⟩
    unfold appendWAL
    rw [if_pos (Or.inr hlen)]
  · right
    refine ⟨Nat.le_of_not_lt hlen, ?_⟩
    have hcond : ¬ ((encodeWALPayload e).length = 0 ∨
        maxWALRecordBytes < (encodeWALPayload e).length) := by
      rintro (h | h)
      · exact hne h
      · exact hlen h
    unfold appendWAL
    rw [if_neg hcond]
    cases fault with
    | none => rfl
    | cutAt n => rfl
    | syncFails => rfl

variable {s : Store}

theorem Sound.called (hd : Sound C net s.disk) (c : FaultyApply) :
    Called C s c (s.applyFaulty C c).1 (s.applyFaulty C c).2 := by
  obtain ⟨fault, consumed, created⟩ := c
  simp only [Store.applyFaulty]
  rw [Disk.apply, if_neg (by simp [hd.opened]), Disk.prevalidate]
  rcases validateDelta_cases s.disk.objects consumed created with
    ⟨hok, hv⟩ | ⟨e, he⟩
  · rw [hok]
    simp only
    rcases appendWAL_entry s.dir.wal (s.disk.entry consumed created) fault
      with ⟨hlong, happ⟩ | ⟨hsize, happ⟩
    · have happ' : appendWAL s.dir.wal (encodeWALPayload
          ⟨s.disk.network, s.disk.seq + 1, consumed, created⟩) fault = _ :=
        happ
      rw [happ']
      exact .refused _ fun h => Nat.not_lt.2 h.2 hlong
    · have happ' : appendWAL s.dir.wal (encodeWALPayload
          ⟨s.disk.network, s.disk.seq + 1, consumed, created⟩) fault = _ :=
        happ
      rw [happ']
      cases fault with
      | none =>
        have hv' := hv
        rw [hd.objects] at hv'
        obtain ⟨hmem, -, -⟩ := hd.mirrors.apply_valid hv'
        rw [hmem]
        exact .taken ⟨hv, hsize⟩ rfl
      | cutAt n => exact .failed ⟨hv, hsize⟩ AppendFault.noConfusion
      | syncFails => exact .failed ⟨hv, hsize⟩ AppendFault.noConfusion
  · rw [he]
    refine .refused e fun h => ?_
    rw [validateDelta_eq_ok.2 h.1] at he
    cases he

/-- A begun append, written out. -/
theorem Sound.applyFaulty_of_loggable (hd : Sound C net s.disk)
    {c : FaultyApply} (hlog : s.Loggable c) :
    s.applyFaulty C c =
      (⟨if c.fault.error.isNone then
          s.disk.applied C c.consumed c.created else s.disk,
        { s.dir with wal := s.dir.wal ++ c.fault.left (s.record c) }⟩,
        c.fault.error) := by
  have hcalled := hd.called c
  generalize hout : s.applyFaulty C c = out at hcalled
  obtain ⟨s', err⟩ := out
  simp only at hcalled
  cases hcalled with
  | refused e hno => exact absurd hlog hno
  | failed _ hfault =>
    cases hf : c.fault with
    | none => exact absurd hf hfault
    | cutAt n => rfl
    | syncFails => rfl
  | taken _ hfault =>
    rw [hfault]
    rfl

-- ==== the runs

/-- The condition on one call: it stays within the reader's limits, and
its append, if it fails, fails before the first byte. -/
def LeavesNoBytes (C : Crypto) (s : Store) (c : FaultyApply) : Prop :=
  WithinLimits C s (.apply c.consumed c.created) ∧
    (c.fault = .none ∨ c.fault = .cutAt 0)

/-- `P` holds of every call of a row, on the store it is made on. -/
def EveryCall (C : Crypto) (P : Store → FaultyApply → Prop) (s : Store) :
    List FaultyApply → Prop
  | [] => True
  | c :: calls =>
    P s c ∧ EveryCall C P (s.applyFaulty C c).1 calls

/-- The disk that a row of calls produces when each takes its delta. -/
def Disk.appliedAll (C : Crypto) (d : Disk) (calls : List FaultyApply) :
    Disk :=
  calls.foldl (fun d c => d.applied C c.consumed c.created) d

variable {base : Disk} {entries : List WALEntry}

/-- One call that leaves no byte behind: acknowledged and taken, or
without any effect. -/
theorem Recoverable.call (h : Recoverable C net s base entries)
    {c : FaultyApply} (hc : LeavesNoBytes C s c) :
    (∃ base' entries',
      Recoverable C net (s.applyFaulty C c).1 base' entries') ∧
    (s.applyFaulty C c).1.disk =
      if (s.applyFaulty C c).2.isNone then
        s.disk.applied C c.consumed c.created
      else s.disk := by
  have hcalled := h.sound.called c
  generalize (s.applyFaulty C c).1 = s' at hcalled
  generalize (s.applyFaulty C c).2 = err at hcalled
  cases hcalled with
  | refused e hno => exact ⟨⟨base, entries, h⟩, rfl⟩
  | failed hlog hfault =>
    obtain ⟨-, hnone | hcut⟩ := hc
    · exact absurd hnone hfault
    · rw [hcut]
      have hleft : AppendFault.left (s.record c) (.cutAt 0) = [] := rfl
      rw [hleft, List.append_nil]
      exact ⟨⟨base, entries, h⟩, rfl⟩
  | taken hlog hfault =>
    have hstep := h.sound.step_apply_iff.2 ⟨hlog.1, hlog.2, rfl⟩
    exact ⟨h.step hc.1 hstep, rfl⟩

theorem Recoverable.calls {calls : List FaultyApply}
    (h : Recoverable C net s base entries)
    (hc : EveryCall C (LeavesNoBytes C) s calls) :
    (∃ base' entries',
      Recoverable C net (s.applyAll C calls).1 base' entries') ∧
    (s.applyAll C calls).1.disk =
      s.disk.appliedAll C (s.applyAll C calls).2 := by
  induction calls generalizing s base entries with
  | nil => exact ⟨⟨base, entries, h⟩, rfl⟩
  | cons c calls ih =>
    obtain ⟨hfirst, hrest⟩ := hc
    obtain ⟨⟨base', entries', h'⟩, hdisk⟩ := h.call hfirst
    obtain ⟨hrec, hall⟩ := ih h' hrest
    refine ⟨hrec, ?_⟩
    show (Store.applyAll C (s.applyFaulty C c).1 calls).1.disk = _
    rw [hall, hdisk]
    simp only [Store.applyAll]
    cases herr : (s.applyFaulty C c).2.isNone with
    | true => rfl
    | false => rfl

/-- In every run of calls that leave no byte behind when they fail,
reopening the directory gives the disk that the acknowledged calls
produce, in order. -/
theorem reopen_acknowledged {s : Store}
    (hs : Run C net (WithinLimits C) s) {calls : List FaultyApply}
    (hc : EveryCall C (LeavesNoBytes C) s calls) :
    ∃ dir, openDisk C (s.applyAll C calls).1.dir net =
      .ok ⟨s.disk.appliedAll C (s.applyAll C calls).2, dir⟩ := by
  obtain ⟨base, entries, hr⟩ := hs.recoverable
  obtain ⟨⟨base', entries', h'⟩, hdisk⟩ := hr.calls hc
  refine ⟨(s.applyAll C calls).1.dir, ?_⟩
  rw [← hdisk]
  exact h'.reopens

/-- A call that creates one small object on an empty store. -/
def createSample (fault : AppendFault) (n : Nat) : FaultyApply :=
  ⟨fault, [], [numberedObject n]⟩

theorem createSample_withinLimits (fault : AppendFault) (n : Nat) :
    WithinLimits C (newStore net) (.apply (createSample fault n).consumed
      (createSample fault n).created) := by
  have hseq : (0 : UInt64) + 1 ≠ 0 := by decide
  exact ⟨Nat.zero_le _, hseq⟩

theorem createSample_loggable (fault : AppendFault) {n : Nat}
    (hn : n < 2000000) :
    (newStore net).Loggable (createSample fault n) := by
  constructor
  · refine ⟨List.nodup_nil, ?_, ?_, List.nodup_singleton _, ?_⟩
    · intro id hid
      cases hid
    · intro o ho
      obtain rfl := List.mem_singleton.1 ho
      exact numberedObject_valid hn
    · intro o _ hin
      exact absurd hin Finmap.notMem_empty
  · rw [length_encodeWALPayload, length_storedObjects]
    have hlen : 50 + 32 * 0 + 82 ≤ maxWALRecordBytes := by decide
    exact hlen

/-- An append that fails before its first byte, and a call after it. -/
theorem reopen_acknowledged_after_failure :
    ∃ dir, openDisk truncatingCrypto
        ((newStore sampleNetwork).applyAll truncatingCrypto
          [createSample (.cutAt 0) 0, createSample .none 1]).1.dir
        sampleNetwork =
      .ok ⟨(newDisk sampleNetwork).appliedAll truncatingCrypto
        ((newStore sampleNetwork).applyAll truncatingCrypto
          [createSample (.cutAt 0) 0, createSample .none 1]).2, dir⟩ := by
  have hnet : sampleNetwork ≠ Bytes32.zero := by decide
  refine reopen_acknowledged (Run.opened (openDisk_empty hnet)) ?_
  have hsound : Sound truncatingCrypto sampleNetwork
      (newStore sampleNetwork).disk := sound_newDisk
  have hfirst := hsound.applyFaulty_of_loggable
    (createSample_loggable (.cutAt 0) (n := 0) (by decide))
  refine ⟨⟨createSample_withinLimits _ _, Or.inr rfl⟩, ?_, trivial⟩
  rw [hfirst]
  exact ⟨createSample_withinLimits .none 1, Or.inl rfl⟩

-- ==== a sync that fails

/-- A refused delta whose record is complete takes the place of the delta
acknowledged after it. -/
theorem Recoverable.sync_failure (h : Recoverable C net s base entries)
    {a b : FaultyApply} (ha : a.fault = .syncFails) (hb : b.fault = .none)
    (hlogA : s.Loggable a) (hlogB : s.Loggable b)
    (hlimA : WithinLimits C s (.apply a.consumed a.created))
    (hlimB : WithinLimits C s (.apply b.consumed b.created)) :
    (s.applyAll C [a, b]).2 = [b] ∧
    ∃ dir, openDisk C (s.applyAll C [a, b]).1.dir net =
      .ok ⟨s.disk.applied C a.consumed a.created, dir⟩ := by
  have hfirst := h.sound.applyFaulty_of_loggable hlogA
  rw [ha] at hfirst
  have hsecond : Store.applyFaulty C (s.applyFaulty C a).1 b =
      (⟨s.disk.applied C b.consumed b.created, { s.dir with
        wal := s.dir.wal ++ s.record a ++ s.record b }⟩, none) := by
    rw [hfirst]
    have hd' : Sound C net (Store.mk s.disk { s.dir with
        wal := s.dir.wal ++ s.record a }).disk := h.sound
    have hcall := hd'.applyFaulty_of_loggable (c := b) hlogB
    rw [hb] at hcall
    exact hcall
  have hrun : s.applyAll C [a, b] =
      (⟨s.disk.applied C b.consumed b.created, { s.dir with
        wal := s.dir.wal ++ s.record a ++ s.record b }⟩, [b]) := by
    simp only [Store.applyAll]
    rw [hsecond, hfirst]
    rfl
  -- both records carry the number the disk would use next
  have hlog : s.dir.wal ++ s.record a ++ s.record b =
      logOf (entries ++ [s.disk.entry a.consumed a.created,
        s.disk.entry b.consumed b.created]) := by
    rw [logOf_append, ← h.log, List.append_assoc]
    simp [logOf, Store.record]
  have hread : ∀ e ∈ entries ++ [s.disk.entry a.consumed a.created,
      s.disk.entry b.consumed b.created], Readable e := by
    intro e he
    simp only [List.mem_append, List.mem_cons, List.not_mem_nil,
      or_false] at he
    rcases he with he | rfl | rfl
    · exact h.readable e he
    · exact ⟨hlimA.2, hlimA.1, hlogA.1.valid, hlogA.2⟩
    · exact ⟨hlimB.2, hlimB.1, hlogB.1.valid, hlogB.2⟩
  have hskip : (s.disk.applied C a.consumed a.created).replayEntry C
      (s.disk.entry b.consumed b.created) =
        .ok (s.disk.applied C a.consumed a.created) := by
    have hsame : (s.disk.entry b.consumed b.created).seq ≤
        (s.disk.applied C a.consumed a.created).seq := UInt64.le_refl _
    rw [Disk.replayEntry, refuse_of_not _ (fun hne => hne rfl), ok_bind,
      if_pos hsame]
    rfl
  have hreplay : (entries ++ [s.disk.entry a.consumed a.created,
      s.disk.entry b.consumed b.created]).foldlM (Disk.replayEntry C)
        base = .ok (s.disk.applied C a.consumed a.created) := by
    rw [List.foldlM_append, h.replays, ok_bind, List.foldlM_cons,
      h.sound.replayEntry_entry hlogA.1 hlimA.2, ok_bind, List.foldlM_cons,
      hskip, ok_bind]
    rfl
  refine ⟨by rw [hrun], ?_⟩
  have hopen := openDisk_entries h.network h.loads hread hreplay
  rw [hrun]
  simp only
  rw [hlog]
  exact ⟨_, hopen⟩

/-- The sync behind object 0 fails, object 1 is acknowledged: the
reopened directory holds object 0 and not object 1. -/
theorem reopen_loses_acknowledged :
    ((newStore sampleNetwork).applyAll truncatingCrypto
      [createSample .syncFails 0, createSample .none 1]).2 =
        [createSample .none 1] ∧
    ¬ ∃ dir, openDisk truncatingCrypto
        ((newStore sampleNetwork).applyAll truncatingCrypto
          [createSample .syncFails 0, createSample .none 1]).1.dir
        sampleNetwork =
      .ok ⟨(newDisk sampleNetwork).appliedAll truncatingCrypto
        [createSample .none 1], dir⟩ := by
  have hnet : sampleNetwork ≠ Bytes32.zero := by decide
  obtain ⟨base, entries, hr⟩ :=
    (Run.opened (openDisk_empty hnet)).recoverable (C := truncatingCrypto)
  obtain ⟨hacked, dir, hopen⟩ := hr.sync_failure
    (a := createSample .syncFails 0) (b := createSample .none 1) rfl rfl
    (createSample_loggable _ (by decide))
    (createSample_loggable _ (by decide))
    (createSample_withinLimits _ _) (createSample_withinLimits _ _)
  refine ⟨hacked, ?_⟩
  rintro ⟨dir', hopen'⟩
  rw [hopen] at hopen'
  have hdisk := congrArg (fun s : Store => s.disk.objects)
    (Except.ok.inj hopen')
  -- object 0 is on the reopened disk only
  have hlookup := congrArg
    (fun objects : Objects => objects.lookup (numberedObject 0).id) hdisk
  have hnodup : ([numberedObject 0].map Object.id).Nodup :=
    List.nodup_singleton _
  have hzero : (applyObjects (∅ : Objects) [] [numberedObject 0]).lookup
      (numberedObject 0).id = some (numberedObject 0) :=
    lookup_applyObjects_created hnodup List.mem_cons_self
  have hother : (numberedObject 0).id ∉
      [numberedObject 1].map Object.id := by
    intro hin
    have heq := numberedObject_id_inj (by decide) (by decide)
      (List.mem_singleton.1 hin)
    omega
  have hone : (applyObjects (∅ : Objects) [] [numberedObject 1]).lookup
      (numberedObject 0).id = none := by
    rw [lookup_applyObjects_other hother]
    simp
  have hcontra : some (numberedObject 0) = none :=
    hzero.symm.trans (hlookup.trans hone)
  cases hcontra

end ZephyrChain.WorldState
