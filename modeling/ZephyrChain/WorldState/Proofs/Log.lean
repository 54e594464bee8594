/-
The log at the level of bytes: what one append wrote, one step of the
replay loop reads back, and a record cut short is seen as torn.

`Readable` is the reader's side of the limits: the writer bounds the
payload by 64 MiB and nothing else, the reader also bounds the number of
consumed ids by one million. The number of created objects is bounded on
both sides, since a stored object takes at least 82 bytes.

`replayFrom_entries` is what the recovery proof uses: on a log of
readable entries the loop over bytes is a fold over entries.
-/
import ZephyrChain.WorldState.Disk
import ZephyrChain.WorldState.Proofs.Memory

namespace ZephyrChain.WorldState

open Lib

-- ==== payload

/-- The bytes of a row of stored objects. -/
def storedObjects (objects : List Object) : Bytes :=
  objects.flatMap fun item => Writer.bytes item.canonicalBytes

/-- A stored object takes 82 bytes beside its data. -/
theorem length_storedObjects (objects : List Object) :
    (storedObjects objects).length =
      (objects.map fun o => 82 + o.data.length).sum := by
  induction objects with
  | nil => rfl
  | cons o objects ih =>
    simp only [storedObjects, List.flatMap_cons, List.length_append,
      Writer.length_bytes, length_canonicalBytes, List.map_cons,
      List.sum_cons] at ih ⊢
    omega

theorem le_length_storedObjects (objects : List Object) :
    82 * objects.length ≤ (storedObjects objects).length := by
  rw [length_storedObjects]
  induction objects with
  | nil => simp
  | cons o objects ih =>
    simp only [List.map_cons, List.sum_cons, List.length_cons] at ih ⊢
    omega

theorem exact_storedObject : Exact readStoredObject
    (fun o => Writer.bytes o.canonicalBytes) Object.Valid :=
  exact_nested (fun _ _ => parseObject_eq_ok)
    fun _ => length_canonicalBytes_object

theorem length_flatMap_fixed (ids : List ObjectID) :
    (ids.flatMap Writer.fixed).length = 32 * ids.length := by
  induction ids with
  | nil => rfl
  | cons id ids ih =>
    rw [List.flatMap_cons, List.length_append, ih, Writer.length_fixed,
      List.length_cons]
    omega

theorem length_encodeWALPayload (e : WALEntry) :
    (encodeWALPayload e).length =
      50 + 32 * e.consumed.length + (storedObjects e.created).length := by
  simp only [encodeWALPayload, List.length_append, Writer.length_u16,
    Writer.length_u64, Writer.length_u32, Writer.length_fixed,
    length_flatMap_fixed, storedObjects]
  omega

/-- An entry the replay can parse. -/
structure Readable (e : WALEntry) : Prop where
  seq : e.seq ≠ 0
  consumed : e.consumed.length ≤ maxWALRecordIDs.toNat
  valid : ∀ o ∈ e.created, o.Valid
  size : (encodeWALPayload e).length ≤ maxWALRecordBytes

variable {e : WALEntry}

/-- The size limit of a record bounds the objects it can hold. -/
theorem created_length_le
    (h : (encodeWALPayload e).length ≤ maxWALRecordBytes) :
    e.created.length ≤ maxWALRecordIDs.toNat := by
  have h82 := le_length_storedObjects e.created
  rw [length_encodeWALPayload] at h
  change _ ≤ 67108864 at h
  change _ ≤ 1000000
  omega

/-- A readable entry parses back. -/
theorem parseWALPayload_encode (h : Readable e) :
    parseWALPayload (encodeWALPayload e) = .ok e := by
  have hread : Exact readWALEntry encodeWALPayload fun e =>
      e.seq ≠ 0 ∧ e.consumed.length ≤ maxWALRecordIDs.toNat ∧
        e.created.length ≤ maxWALRecordIDs.toNat ∧
          ∀ o ∈ e.created, o.Valid := by
    refine Exact.of_fields (
      .literal persistenceVersion Reader.exact_u16 trivial <|
      .field WALEntry.network Reader.exact_fixed fun _ =>
      .field WALEntry.seq Reader.exact_u64 fun _ =>
      .refuse (WALEntry.seq · ≠ 0) (fun _ h => by rw [h.2]) <|
      Reader.row32 WALEntry.consumed (· ≤ maxWALRecordIDs.toNat)
        Reader.exact_fixed (fun _ => UInt32.not_lt) (fun _ h => h)
        (by decide) fun _ =>
      Reader.row32 WALEntry.created (· ≤ maxWALRecordIDs.toNat)
        exact_storedObject (fun _ => UInt32.not_lt) (fun _ h => h)
        (by decide) fun _ => .pure fun e => ?_) ?_ ?_
    · cases e
      simp [and_assoc]
    · simp [encodeWALPayload]
    · simp
  exact (parseWith_exact hread).2
    ⟨rfl, h.seq, h.consumed, created_length_le h.size, h.valid⟩

/-- A record with more consumed ids than the reader's limit does not
parse, though it fits the writer's. -/
theorem parseWALPayload_overfull
    (hids : maxWALRecordIDs.toNat < e.consumed.length)
    (hsize : (encodeWALPayload e).length ≤ maxWALRecordBytes) :
    parseWALPayload (encodeWALPayload e) = .error .persistenceCorrupt := by
  refine parseWith_of_fails _ ?_
  have hcount : maxWALRecordIDs < UInt32.ofNat e.consumed.length := by
    rw [length_encodeWALPayload] at hsize
    change _ ≤ 67108864 at hsize
    rw [UInt32.lt_iff_toNat_lt, UInt32.toNat_ofNat',
      Nat.mod_eq_of_lt (by omega)]
    exact hids
  unfold encodeWALPayload
  simp only [List.append_assoc]
  refine (Reader.exact_u16.parses trivial).bind_fails ?_
  refine Fails.of_not (fun hne => hne rfl) ?_
  refine (Reader.exact_fixed.parses trivial).bind_fails ?_
  refine (Reader.exact_u64.parses trivial).bind_fails ?_
  by_cases hseq : e.seq = 0
  · exact Fails.refuse hseq _ _
  refine Fails.of_not hseq ?_
  refine (Reader.exact_u32.parses trivial).bind_fails ?_
  exact Fails.refuse hcount _ _

variable {n : Nat}

-- ==== record

/-- A payload the writer accepts. -/
def Writable (payload : Bytes) : Prop :=
  payload.length ≠ 0 ∧ payload.length ≤ maxWALRecordBytes

theorem Readable.writable (h : Readable e) :
    Writable (encodeWALPayload e) := by
  refine ⟨?_, h.size⟩
  rw [length_encodeWALPayload]
  omega

theorem length_walMagic : walMagic.length = 4 := by decide

theorem length_walRecord (payload : Bytes) :
    (walRecord payload).length = 8 + payload.length + 4 := by
  simp only [walRecord, List.length_append, length_walMagic,
    Writer.length_u32]

variable {payload : Bytes}

/-- The length field holds the length. -/
theorem ofBe_lengthField (h : Writable payload) :
    ofBe (Writer.u32 (UInt32.ofNat payload.length)) = payload.length := by
  have hlt : payload.length < 2 ^ 32 := by
    have h2 := h.2
    change _ ≤ 67108864 at h2
    omega
  rw [Writer.u32, UInt32.toNat_ofNat', Nat.mod_eq_of_lt hlt,
    ofBe_beBytes_of_lt (by omega)]

/-- A whole record at the front of the log is read. -/
theorem nextRecord_walRecord (h : Writable payload) (rest : Bytes) :
    nextRecord (walRecord payload ++ rest) = .record payload rest := by
  have hbody : walRecord payload ++ rest =
      walMagic ++ (Writer.u32 (UInt32.ofNat payload.length) ++
        (payload ++ (Writer.u32 (crc32c payload) ++ rest))) := by
    simp only [walRecord, List.append_assoc]
  have htake4 : (walRecord payload ++ rest).take 4 = walMagic := by
    rw [hbody, List.take_left' length_walMagic]
  have hdrop4 : (walRecord payload ++ rest).drop 4 =
      Writer.u32 (UInt32.ofNat payload.length) ++
        (payload ++ (Writer.u32 (crc32c payload) ++ rest)) := by
    rw [hbody, List.drop_left' length_walMagic]
  have hlenField : ofBe (((walRecord payload ++ rest).drop 4).take 4) =
      payload.length := by
    rw [hdrop4, List.take_left' (Writer.length_u32 _), ofBe_lengthField h]
  have hdrop8 : (walRecord payload ++ rest).drop 8 =
      payload ++ (Writer.u32 (crc32c payload) ++ rest) := by
    rw [show 8 = 4 + 4 from rfl, ← List.drop_drop, hdrop4,
      List.drop_left' (Writer.length_u32 _)]
  have hlen : (walRecord payload ++ rest).length =
      8 + payload.length + 4 + rest.length := by
    rw [List.length_append, length_walRecord]
  have hsum : ofBe (Writer.u32 (crc32c payload)) =
      (crc32c payload).toNat := by
    rw [Writer.u32, ofBe_beBytes_of_lt (crc32c payload).toNat_lt]
  unfold nextRecord
  rw [if_neg (by omega), if_neg (by omega), if_neg (by simp [htake4])]
  simp only [hlenField, hdrop8]
  rw [if_neg (by have := h.1; have := h.2; omega), if_neg (by simp),
    List.take_left, List.drop_left, if_neg (by simp),
    List.take_left' (Writer.length_u32 _), if_neg (by simp [hsum]),
    List.drop_left' (Writer.length_u32 _)]

/-- A record cut short is torn, or leaves nothing at all. -/
theorem nextRecord_torn (h : Writable payload)
    (hn : n < (walRecord payload).length) :
    nextRecord ((walRecord payload).take n) =
      if n = 0 then .eof else .torn := by
  have hlen : ((walRecord payload).take n).length = n := by
    rw [List.length_take]
    omega
  rw [length_walRecord] at hn
  unfold nextRecord
  rw [hlen]
  by_cases h0 : n = 0
  · rw [if_pos h0, if_pos h0]
  rw [if_neg h0, if_neg h0]
  by_cases h8 : n < 8
  · rw [if_pos h8]
  rw [if_neg h8]
  -- the header is whole: the cut is in the payload or the checksum
  have hcut : (walRecord payload).take n =
      walMagic ++ (Writer.u32 (UInt32.ofNat payload.length) ++
        (payload ++ Writer.u32 (crc32c payload)).take (n - 8)) := by
    have hrec : walRecord payload =
        walMagic ++ (Writer.u32 (UInt32.ofNat payload.length) ++
          (payload ++ Writer.u32 (crc32c payload))) := by
      simp only [walRecord, List.append_assoc]
    rw [hrec, List.take_append, List.take_append, length_walMagic,
      Writer.length_u32, List.take_of_length_le
        (Nat.le_trans (Nat.le_of_eq length_walMagic) (by omega)),
      List.take_of_length_le
        (Nat.le_trans (Nat.le_of_eq (Writer.length_u32 _)) (by omega)),
      Nat.sub_sub]
  have htake4 : ((walRecord payload).take n).take 4 = walMagic := by
    rw [hcut, List.take_left' length_walMagic]
  have hdrop4 : ((walRecord payload).take n).drop 4 =
      Writer.u32 (UInt32.ofNat payload.length) ++
        (payload ++ Writer.u32 (crc32c payload)).take (n - 8) := by
    rw [hcut, List.drop_left' length_walMagic]
  have hlenField : ofBe ((((walRecord payload).take n).drop 4).take 4) =
      payload.length := by
    rw [hdrop4, List.take_left' (Writer.length_u32 _), ofBe_lengthField h]
  have hdrop8 : (((walRecord payload).take n).drop 8).length = n - 8 := by
    rw [List.length_drop, hlen]
  rw [if_neg (by simp [htake4])]
  simp only [hlenField]
  rw [if_neg (by have := h.1; have := h.2; omega)]
  by_cases hp : n - 8 < payload.length
  · rw [if_pos (by rw [hdrop8]; exact hp)]
  · rw [if_neg (by rw [hdrop8]; exact hp), if_pos]
    rw [List.length_drop, hdrop8]
    omega

-- ==== replay

/-- The log of a row of entries. -/
def logOf (entries : List WALEntry) : Bytes :=
  entries.flatMap fun e => walRecord (encodeWALPayload e)

theorem logOf_append (es fs : List WALEntry) :
    logOf (es ++ fs) = logOf es ++ logOf fs := by
  simp [logOf]

theorem logOf_singleton (e : WALEntry) :
    logOf [e] = walRecord (encodeWALPayload e) := by
  simp [logOf]

variable (C : Crypto)

theorem replayFrom_record (d : Disk) (offset : Nat) (he : Readable e)
    (rest : Bytes) :
    d.replayFrom C offset (walRecord (encodeWALPayload e) ++ rest) =
      (do
        let d ← d.replayEntry C e
        d.replayFrom C
          (offset + (walRecord (encodeWALPayload e)).length) rest) := by
  have hnext := nextRecord_walRecord he.writable rest
  rw [Disk.replayFrom]
  split
  case h_4 payload tail h =>
    rw [hnext] at h
    obtain ⟨rfl, rfl⟩ := WALRead.record.inj h
    rw [parseWALPayload_encode he, ok_bind, length_walRecord]
  all_goals
    next h =>
      rw [hnext] at h
      cases h

/-- An overfull record stops the replay. -/
theorem replayFrom_overfull (d : Disk) (offset : Nat)
    (hids : maxWALRecordIDs.toNat < e.consumed.length)
    (hsize : (encodeWALPayload e).length ≤ maxWALRecordBytes) :
    d.replayFrom C offset (walRecord (encodeWALPayload e)) =
      .error .persistenceCorrupt := by
  have hw : Writable (encodeWALPayload e) := by
    refine ⟨?_, hsize⟩
    rw [length_encodeWALPayload]
    omega
  have hnext := nextRecord_walRecord hw []
  rw [List.append_nil] at hnext
  rw [Disk.replayFrom]
  split
  case h_4 payload tail h =>
    rw [hnext] at h
    obtain ⟨rfl, rfl⟩ := WALRead.record.inj h
    rw [parseWALPayload_overfull hids hsize, error_bind]
  all_goals
    next h =>
      have hcontra := hnext.symm.trans h
      cases hcontra

/-- On readable entries the replay loop is a fold. -/
theorem replayFrom_entries (entries : List WALEntry)
    (he : ∀ e ∈ entries, Readable e) (d : Disk) (offset : Nat)
    (tail : Bytes) :
    d.replayFrom C offset (logOf entries ++ tail) =
      (do
        let d ← entries.foldlM (Disk.replayEntry C) d
        d.replayFrom C (offset + (logOf entries).length) tail) := by
  induction entries generalizing d offset with
  | nil => rfl
  | cons e entries ih =>
    have hsplit : logOf (e :: entries) =
        walRecord (encodeWALPayload e) ++ logOf entries := rfl
    rw [hsplit, List.append_assoc,
      replayFrom_record C d offset (he e List.mem_cons_self),
      List.foldlM_cons, bind_assoc]
    refine congrArg _ (funext fun d' => ?_)
    rw [ih (fun x hx => he x (List.mem_cons_of_mem e hx)),
      List.length_append, Nat.add_assoc]

/-- An empty rest ends the replay. -/
theorem replayFrom_nil (d : Disk) (offset : Nat) :
    d.replayFrom C offset [] = .ok (d, none) := by
  rw [Disk.replayFrom]
  rfl

/-- A torn rest ends the replay, and the log is cut back to where the
torn record began. -/
theorem replayFrom_torn (d : Disk) (offset : Nat) (h : Writable payload)
    (h0 : n ≠ 0) (hn : n < (walRecord payload).length) :
    d.replayFrom C offset ((walRecord payload).take n) =
      .ok (d, some offset) := by
  have hnext := nextRecord_torn h hn
  rw [if_neg h0] at hnext
  rw [Disk.replayFrom]
  split
  case h_2 => rfl
  all_goals
    next h =>
      rw [hnext] at h
      cases h

end ZephyrChain.WorldState
