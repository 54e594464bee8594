/-
Sequences of typed writes and reads.

# Two readers

A read on a cursor does what the reader of the bytes behind its offset
does (`Refines`), so everything known about `Reader` holds of the
source's reader: a value is read exactly from its own encoding
(`exact_read`). Beside that the cursor stays on its data, and its offset
never falls and never passes the end, whether the read succeeds or not.

# Lengths

A string is written behind its length modulo 2^32. Two sequences of
shorter strings never give the same bytes; sequences with a longer string
can (`longStrings_collide`).
-/
import ZephyrChain.Codec.Cursor
import ZephyrChain.Codec.Exact

namespace ZephyrChain

open Lib

-- ==== moves

/-- The offset lies in the data, and the data is a slice. -/
structure Cursor.Inside (c : Cursor) : Prop where
  within : c.off ≤ c.data.length
  slice : c.data.length < 2 ^ 63

/-- From one position to a later one of the same data. -/
structure Cursor.Advances (c c' : Cursor) : Prop where
  data : c'.data = c.data
  grows : c.off ≤ c'.off
  within : c'.off ≤ c'.data.length

theorem Cursor.Inside.refl {c : Cursor} (h : c.Inside) : c.Advances c :=
  ⟨rfl, le_rfl, h.within⟩

theorem Cursor.Advances.trans {a b c : Cursor} (h : a.Advances b)
    (h' : b.Advances c) : a.Advances c :=
  ⟨h'.data.trans h.data, h.grows.trans h'.grows, h'.within⟩

theorem Cursor.Inside.after {c c' : Cursor} (h : c.Inside)
    (h' : c.Advances c') : c'.Inside :=
  ⟨h'.within, h'.data ▸ h.slice⟩

-- ==== refinement

variable {α β : Type}

/-- A call on a cursor that does to its data what a reader does to the
bytes behind the offset. -/
structure Refines (p : CursorM α) (q : Reader α) : Prop where
  advances : ∀ c : Cursor, c.Inside → c.Advances (p c).2
  sound : ∀ (c : Cursor) a, c.Inside → (p c).1 = .ok a →
    q.run c.rest = .ok (a, (p c).2.rest)
  complete : ∀ (c : Cursor) a ts, c.Inside → q.run c.rest = .ok (a, ts) →
    (p c).1 = .ok a

theorem Refines.pure (a : α) : Refines (Pure.pure a) (Pure.pure a) where
  advances := fun _ h => h.refl
  sound := fun c b _ hb => by
    cases hb
    rfl
  complete := fun c b ts _ hb => by
    cases hb
    rfl

theorem Refines.throw (f : Fault) (e : Error) :
    Refines (MonadExcept.throw f : CursorM α) (MonadExcept.throw e) where
  advances := fun _ h => h.refl
  sound := fun c b _ hb => by cases hb
  complete := fun c b ts _ hb => by cases hb

/-- A bind goes on where the first call has stopped. -/
theorem cursor_bind (p : CursorM α) (f : α → CursorM β) (c : Cursor) :
    (∀ e, (p c).1 = .error e → (p >>= f) c = (.error e, (p c).2)) ∧
      ∀ a, (p c).1 = .ok a → (p >>= f) c = f a (p c).2 := by
  have hbind : (p >>= f) c = (ExceptT.bindCont f (p c).1) (p c).2 := rfl
  refine ⟨fun e he => ?_, fun a ha => ?_⟩
  · rw [hbind, he]
    rfl
  · rw [hbind, ha]
    rfl

theorem Refines.bind {p : CursorM α} {q : Reader α} {f : α → CursorM β}
    {g : α → Reader β} (hp : Refines p q) (hf : ∀ a, Refines (f a) (g a)) :
    Refines (p >>= f) (q >>= g) where
  advances := by
    intro c hc
    obtain ⟨herr, hok⟩ := cursor_bind p f c
    have hfirst := hp.advances c hc
    cases hx : (p c).1 with
    | error e =>
      rw [herr e hx]
      exact hfirst
    | ok a =>
      rw [hok a hx]
      exact hfirst.trans ((hf a).advances _ (hc.after hfirst))
  sound := by
    intro c b hc hb
    obtain ⟨herr, hok⟩ := cursor_bind p f c
    cases hx : (p c).1 with
    | error e =>
      rw [herr e hx] at hb
      cases hb
    | ok a =>
      rw [hok a hx] at hb ⊢
      exact run_bind_eq_ok.2 ⟨a, _, hp.sound c a hc hx,
        (hf a).sound _ b (hc.after (hp.advances c hc)) hb⟩
  complete := by
    intro c b ts hc hb
    obtain ⟨a, mid, ha, hmid⟩ := run_bind_eq_ok.1 hb
    have hx := hp.complete c a mid hc ha
    have hrest := hp.sound c a hc hx
    rw [ha, Except.ok.injEq, Prod.mk.injEq] at hrest
    rw [(cursor_bind p f c).2 a hx]
    refine (hf a).complete _ b ts (hc.after (hp.advances c hc)) ?_
    rwa [← hrest.2]

theorem Refines.map {p : CursorM α} {q : Reader α} (hp : Refines p q)
    (f : α → β) : Refines (f <$> p) (f <$> q) := by
  rw [← bind_pure_comp, ← bind_pure_comp]
  exact hp.bind fun a => Refines.pure (f a)

-- ==== reads

/-- The end of a field, when the cursor accepts it. -/
theorem take_eq (n : Int64) {c : Cursor} (hc : c.Inside) :
    (0 ≤ n.toInt ∧ c.off + n.toInt.toNat ≤ c.data.length ∧
      Cursor.take n c = (.ok (c.rest.take n.toInt.toNat),
        ⟨c.data, c.off + n.toInt.toNat⟩)) ∨
    ((n.toInt < 0 ∨ c.data.length < c.off + n.toInt.toNat) ∧
      ∃ f, Cursor.take n c = (.error f, c)) := by
  have hn : n.toInt < 2 ^ 63 := n.toInt_lt
  have hwithin := hc.within
  have hslice := hc.slice
  unfold Cursor.take
  dsimp only
  by_cases hneg : n.toInt < 0
  · rw [if_pos (.inl hneg)]
    exact .inr ⟨.inl hneg, _, rfl⟩
  -- an end past the range of an `int` wraps to a negative number
  by_cases hfits : (c.off : Int) + n.toInt < 2 ^ 63
  · have hstop : ((c.off : Int) + n.toInt).bmod (2 ^ 64) =
        c.off + n.toInt := by
      rw [Int.bmod_eq_of_le] <;> omega
    rw [hstop]
    by_cases hpast : (c.data.length : Int) < c.off + n.toInt
    · rw [if_pos (.inr hpast)]
      exact .inr ⟨.inr (by omega), _, rfl⟩
    · rw [if_neg (by omega), if_neg (by omega)]
      have hnat : ((c.off : Int) + n.toInt).toNat =
          c.off + n.toInt.toNat := by omega
      rw [hnat, Nat.add_sub_cancel_left]
      exact .inl ⟨by omega, by omega, rfl⟩
  · have hstop : ((c.off : Int) + n.toInt).bmod (2 ^ 64) < 0 := by
      rw [Int.bmod_def]
      omega
    rw [if_neg (by omega), if_pos (by omega)]
    exact .inr ⟨.inr (by omega), _, rfl⟩

/-- `take` of a length, and a failure for a negative one. -/
def takeInt (n : Int64) : Reader Bytes :=
  if n.toInt < 0 then throw .unexpectedEOF else Reader.take n.toInt.toNat

theorem refines_take (n : Int64) :
    Refines (Cursor.take n) (takeInt n) where
  advances := by
    intro c hc
    rcases take_eq n hc with ⟨_, hend, htake⟩ | ⟨_, f, htake⟩
    · rw [htake]
      exact ⟨rfl, Nat.le_add_right _ _, hend⟩
    · rw [htake]
      exact hc.refl
  sound := by
    intro c b hc hb
    rcases take_eq n hc with ⟨hpos, hend, htake⟩ | ⟨_, f, htake⟩
    · rw [htake] at hb ⊢
      cases hb
      rw [takeInt, if_neg (by omega)]
      refine Reader.run_take.2 ⟨?_, ?_⟩
      · rw [Cursor.rest, Cursor.rest, ← List.drop_drop, List.take_append_drop]
      · rw [List.length_take, Cursor.rest, List.length_drop]
        omega
    · rw [htake] at hb
      cases hb
  complete := by
    intro c b ts hc hb
    rcases take_eq n hc with ⟨hpos, hend, htake⟩ | ⟨hout, f, htake⟩
    · rw [takeInt, if_neg (by omega)] at hb
      obtain ⟨hrest, hlen⟩ := Reader.run_take.1 hb
      rw [htake, hrest, ← hlen, List.take_left]
    · rw [takeInt] at hb
      split at hb
      case isTrue => cases hb
      case isFalse hpos =>
        obtain ⟨hrest, hlen⟩ := Reader.run_take.1 hb
        have hall := congrArg List.length hrest
        rw [Cursor.rest, List.length_drop, List.length_append, hlen] at hall
        have := hc.within
        omega

theorem takeInt_of_toInt {n : Int64} {k : Nat} (h : n.toInt = k) :
    takeInt n = Reader.take k := by
  rw [takeInt, h, if_neg (by omega), Int.toNat_natCast]

theorem refines_u8 : Refines Cursor.u8 Reader.u8 := by
  have h := refines_take 1
  rw [takeInt_of_toInt (k := 1) rfl] at h
  exact h.bind fun b => Refines.pure _

theorem refines_u16 : Refines Cursor.u16 Reader.u16 := by
  have h := refines_take 2
  rw [takeInt_of_toInt (k := 2) rfl] at h
  exact h.bind fun b => Refines.pure _

theorem refines_u32 : Refines Cursor.u32 Reader.u32 := by
  have h := refines_take 4
  rw [takeInt_of_toInt (k := 4) rfl] at h
  exact h.bind fun b => Refines.pure _

theorem refines_u64 : Refines Cursor.u64 Reader.u64 := by
  have h := refines_take 8
  rw [takeInt_of_toInt (k := 8) rfl] at h
  exact h.bind fun b => Refines.pure _

theorem refines_bool : Refines Cursor.bool Reader.bool := by
  refine refines_u8.bind fun v => ?_
  split
  · exact Refines.pure false
  · split
    · exact Refines.pure true
    · exact Refines.throw _ _

theorem refines_bytes (max : UInt32) :
    Refines (Cursor.bytes max) (Reader.bytes max) := by
  refine refines_u32.bind fun n => ?_
  by_cases hmax : max < n
  · rw [if_pos hmax, refuse, if_pos hmax]
    exact Refines.throw _ _
  · rw [if_neg hmax, refuse, if_neg hmax]
    have hn : (Int64.ofNat n.toNat).toInt = n.toNat := by
      have := n.toNat_lt
      exact Int64.toInt_ofNat_of_lt (by omega)
    have h := refines_take (Int64.ofNat n.toNat)
    rwa [takeInt_of_toInt hn] at h

/-- A typed read of the bytes behind the offset. -/
def Read.reader : Read → Reader Item
  | .u8 => .u8 <$> Reader.u8
  | .u16 => .u16 <$> Reader.u16
  | .u32 => .u32 <$> Reader.u32
  | .u64 => .u64 <$> Reader.u64
  | .bool => .bool <$> Reader.bool
  | .fixed n => .fixed <$> takeInt n
  | .bytes max => .bytes <$> Reader.bytes max
  | .string max => .string <$> Reader.bytes max

theorem refines_read (r : Read) : Refines r.run r.reader := by
  cases r with
  | u8 => exact refines_u8.map _
  | u16 => exact refines_u16.map _
  | u32 => exact refines_u32.map _
  | u64 => exact refines_u64.map _
  | bool => exact refines_bool.map _
  | fixed n => exact (refines_take n).map _
  | bytes max => exact (refines_bytes max).map _
  | string max => exact (refines_bytes max).map _

theorem exact_takeInt (n : Int64) :
    Exact (takeInt n) id fun v => n.toInt = v.length := by
  intro ts v rest
  rw [takeInt]
  split
  case isTrue hneg =>
    constructor
    · intro h
      cases h
    · rintro ⟨-, h⟩
      omega
  case isFalse hpos =>
    rw [Reader.run_take]
    exact and_congr_right fun _ => by omega

/-- A read of one type is exact when the reader of that type is. -/
theorem exact_item {p : Reader α} {enc : α → Bytes} {ok : α → Prop}
    {r : Read} (f : α → Item) (hp : Exact p enc ok)
    (henc : ∀ a, (f a).write = enc a)
    (hok : ∀ i, i.MatchedBy r ↔ ∃ a, i = f a ∧ ok a) :
    Exact (f <$> p) Item.write fun i => i.MatchedBy r := by
  intro ts i rest
  show _ ↔ ts = _ ∧ i.MatchedBy r
  rw [← bind_pure_comp, run_bind_eq_ok, hok]
  constructor
  · rintro ⟨a, mid, ha, hpure⟩
    obtain ⟨rfl, rfl⟩ := run_pure_eq_ok.1 hpure
    obtain ⟨rfl, hoka⟩ := (hp _ _ _).1 ha
    rw [henc]
    exact ⟨rfl, a, rfl, hoka⟩
  · rintro ⟨rfl, a, rfl, hoka⟩
    rw [henc]
    exact ⟨a, rest, (hp _ _ _).2 ⟨rfl, hoka⟩, run_pure_eq_ok.2 ⟨rfl, rfl⟩⟩

/-- A value is read from its own encoding and from nothing else. -/
theorem exact_read (r : Read) :
    Exact r.reader Item.write fun i => i.MatchedBy r := by
  cases r with
  | u8 =>
    refine exact_item Item.u8 Reader.exact_u8 (fun _ => rfl) fun i => ?_
    cases i <;> simp [Item.MatchedBy]
  | u16 =>
    refine exact_item Item.u16 Reader.exact_u16 (fun _ => rfl) fun i => ?_
    cases i <;> simp [Item.MatchedBy]
  | u32 =>
    refine exact_item Item.u32 Reader.exact_u32 (fun _ => rfl) fun i => ?_
    cases i <;> simp [Item.MatchedBy]
  | u64 =>
    refine exact_item Item.u64 Reader.exact_u64 (fun _ => rfl) fun i => ?_
    cases i <;> simp [Item.MatchedBy]
  | bool =>
    refine exact_item Item.bool Reader.exact_bool (fun _ => rfl)
      fun i => ?_
    cases i <;> simp [Item.MatchedBy]
  | fixed n =>
    refine exact_item Item.fixed (exact_takeInt n) (fun _ => rfl)
      fun i => ?_
    cases i <;> simp [Item.MatchedBy]
  | bytes max =>
    refine exact_item Item.bytes (Reader.exact_bytes max) (fun _ => rfl)
      fun i => ?_
    cases i <;> simp [Item.MatchedBy]
  | string max =>
    refine exact_item Item.string (Reader.exact_bytes max) (fun _ => rfl)
      fun i => ?_
    cases i <;> simp [Item.MatchedBy]

-- ==== sequences

/-- A sequence of reads of the bytes behind the offset. -/
def readers : List Read → Reader (List Item)
  | [] => return []
  | r :: rs => do
      let item ← r.reader
      let items ← readers rs
      return item :: items

theorem refines_readAll (reads : List Read) :
    Refines (readAll reads) (readers reads) := by
  induction reads with
  | nil => exact Refines.pure []
  | cons r rs ih =>
    exact (refines_read r).bind fun item => ih.bind fun items =>
      Refines.pure _

theorem exact_readers (reads : List Read) :
    Exact (readers reads) writeAll
      fun items => List.Forall₂ Item.MatchedBy items reads := by
  induction reads with
  | nil =>
    intro ts items rest
    rw [readers, run_pure_eq_ok]
    constructor
    · rintro ⟨rfl, rfl⟩
      exact ⟨rfl, .nil⟩
    · rintro ⟨hts, hnil⟩
      cases hnil
      exact ⟨rfl, hts.symm⟩
  | cons r rs ih =>
    intro ts items rest
    simp only [readers, run_bind_eq_ok, run_pure_eq_ok]
    constructor
    · rintro ⟨item, mid, hitem, tail, _, htail, rfl, rfl⟩
      obtain ⟨rfl, hfirst⟩ := (exact_read r _ _ _).1 hitem
      obtain ⟨rfl, hothers⟩ := (ih _ _ _).1 htail
      exact ⟨by simp [writeAll], .cons hfirst hothers⟩
    · rintro ⟨rfl, hmatched⟩
      cases hmatched with
      | cons hfirst hothers =>
        refine ⟨_, _, (exact_read r _ _ _).2 ⟨?_, hfirst⟩, _, _,
          (ih _ _ _).2 ⟨rfl, hothers⟩, rfl, rfl⟩
        simp [writeAll]

theorem inside_new {data : Bytes} (h : data.length < 2 ^ 63) :
    (Cursor.new data).Inside :=
  ⟨Nat.zero_le _, h⟩

/-- What was written is read back, and nothing is left. -/
theorem readAll_writeAll {items : List Item} {reads : List Read}
    (h : List.Forall₂ Item.MatchedBy items reads)
    (hlen : (writeAll items).length < 2 ^ 63) :
    (readAll reads (.new (writeAll items))).1 = .ok items ∧
      (readAll reads (.new (writeAll items))).2.done = .ok () := by
  have hc := inside_new hlen
  have hexact := exact_readers reads
  have hparsed : (readers reads).run (Cursor.new (writeAll items)).rest =
      .ok (items, []) :=
    (hexact _ _ _).2 ⟨(List.append_nil _).symm, h⟩
  have hread := (refines_readAll reads).complete _ items [] hc hparsed
  refine ⟨hread, ?_⟩
  have hmoved := (refines_readAll reads).advances _ hc
  have hrest := (refines_readAll reads).sound _ items hc hread
  rw [hparsed, Except.ok.injEq, Prod.mk.injEq] at hrest
  have hend := List.drop_eq_nil_iff.1 hrest.2.symm
  rw [Cursor.done, refuse_eq_ok, not_not]
  exact Nat.le_antisymm hmoved.within hend

/-- The first value in a stream tells where it ends and what it is, when
its length fits into its prefix. -/
theorem write_append_inj {a b : Item} (h : a.SameShape b) (ha : a.Short)
    (hb : b.Short) {s t : Bytes} (heq : a.write ++ s = b.write ++ t) :
    a = b ∧ s = t := by
  cases a <;> cases b <;> try exact h.elim
  case u8 v w =>
    obtain ⟨hv, rfl⟩ := List.append_inj heq rfl
    exact ⟨congrArg Item.u8 (List.cons.inj hv).1, rfl⟩
  case u16 v w =>
    obtain ⟨hv, rfl⟩ := List.append_inj heq (by simp [Item.write])
    exact ⟨congrArg Item.u16 (Writer.u16_inj hv), rfl⟩
  case u32 v w =>
    obtain ⟨hv, rfl⟩ := List.append_inj heq (by simp [Item.write])
    exact ⟨congrArg Item.u32 (Writer.u32_inj hv), rfl⟩
  case u64 v w =>
    obtain ⟨hv, rfl⟩ := List.append_inj heq (by simp [Item.write])
    exact ⟨congrArg Item.u64 (Writer.u64_inj hv), rfl⟩
  case bool v w =>
    obtain ⟨hv, rfl⟩ := List.append_inj heq rfl
    refine ⟨congrArg Item.bool ?_, rfl⟩
    revert hv
    cases v <;> cases w <;> decide
  case fixed v w =>
    obtain ⟨hv, rfl⟩ := List.append_inj heq h
    exact ⟨congrArg Item.fixed hv, rfl⟩
  case bytes v w =>
    obtain ⟨hv, rfl⟩ := Writer.bytes_append_inj ha hb heq
    exact ⟨congrArg Item.bytes hv, rfl⟩
  case string v w =>
    obtain ⟨hv, rfl⟩ := Writer.bytes_append_inj ha hb heq
    exact ⟨congrArg Item.string hv, rfl⟩

theorem writeAll_inj {items items' : List Item}
    (h : List.Forall₂ Item.SameShape items items')
    (hshort : ∀ i ∈ items, i.Short) (hshort' : ∀ i ∈ items', i.Short)
    (heq : writeAll items = writeAll items') : items = items' := by
  induction h with
  | nil => rfl
  | cons hshape _ ih =>
    rw [writeAll, writeAll, List.flatMap_cons, List.flatMap_cons] at heq
    obtain ⟨rfl, htail⟩ := write_append_inj hshape
      (hshort _ List.mem_cons_self) (hshort' _ List.mem_cons_self) heq
    rw [ih (fun i hi => hshort i (List.mem_cons_of_mem _ hi))
      (fun i hi => hshort' i (List.mem_cons_of_mem _ hi)) htail]

/-- Reads move forward on the data they started on. -/
theorem advances_after {c : Cursor} (hc : c.Inside) (reads : List Read) :
    c.Advances (c.after reads) := by
  induction reads generalizing c with
  | nil => exact hc.refl
  | cons r rs ih =>
    have hstep := (refines_read r).advances c hc
    exact hstep.trans (ih (hc.after hstep))

/-- Matching reads give back what was written and reach its end. Two
different sequences of one shape, with strings whose lengths fit into
their prefixes, are written differently. Whatever is read from whatever
data, with reads that fail among them, the position never falls and never
passes the end, and a value that is returned is what the bytes between
the old and the new position encode. -/
theorem codec_sequences :
    (∀ items reads, List.Forall₂ Item.MatchedBy items reads →
      (writeAll items).length < 2 ^ 63 →
        (readAll reads (.new (writeAll items))).1 = .ok items ∧
        (readAll reads (.new (writeAll items))).2.done = .ok ()) ∧
    (∀ items items', List.Forall₂ Item.SameShape items items' →
      (∀ i ∈ items, i.Short) → (∀ i ∈ items', i.Short) →
      items ≠ items' → writeAll items ≠ writeAll items') ∧
    ∀ (data : Bytes) (reads : List Read) (r : Read) (c : Cursor),
      data.length < 2 ^ 63 → c = (Cursor.new data).after reads →
        c.data = data ∧ c.Advances (r.run c).2 ∧
        ∀ item, (r.run c).1 = .ok item →
          c.rest = item.write ++ (r.run c).2.rest := by
  refine ⟨fun items reads => readAll_writeAll, ?_, ?_⟩
  · intro items items' hshape hshort hshort' hne heq
    exact hne (writeAll_inj hshape hshort hshort' heq)
  · rintro data reads r c hlen rfl
    have hnew := inside_new hlen
    have hmoved := advances_after hnew reads
    have hc := hnew.after hmoved
    refine ⟨hmoved.data, (refines_read r).advances _ hc, ?_⟩
    intro item hitem
    exact ((exact_read r _ _ _).1
      ((refines_read r).sound _ item hc hitem)).1

theorem codec_sequences_mixed :
    (readAll [.u8, .bool, .fixed 2, .bytes 9, .string 1]
      (.new (writeAll [.u8 7, .bool true, .fixed [1, 2], .bytes [3],
        .string [4]]))).1 =
      .ok [.u8 7, .bool true, .fixed [1, 2], .bytes [3], .string [4]] := by
  have hmatched : List.Forall₂ Item.MatchedBy
      [.u8 7, .bool true, .fixed [1, 2], .bytes [3], .string [4]]
      [.u8, .bool, .fixed 2, .bytes 9, .string 1] := by
    simp [Item.MatchedBy]
  exact (codec_sequences.1 _ _ hmatched (by decide)).1

/-- Zeros behind a prefix that has wrapped to zero. -/
theorem bytes_zeros {n : Nat} (h : UInt32.ofNat n = 0) :
    Writer.bytes (List.replicate n 0) = List.replicate (4 + n) 0 := by
  have hzero : Writer.u32 0 = List.replicate 4 0 := by decide
  rw [Writer.bytes, List.length_replicate, h, hzero,
    List.replicate_append_replicate]

theorem writeAll_swapped {n : Nat} (h : UInt32.ofNat n = 0) :
    writeAll [.bytes (List.replicate n 0), .bytes []] =
      writeAll [.bytes [], .bytes (List.replicate n 0)] := by
  have hempty : Writer.bytes [] = List.replicate 4 0 := by decide
  simp only [writeAll, List.flatMap_cons, List.flatMap_nil, Item.write,
    bytes_zeros h, hempty, List.append_nil, List.replicate_append_replicate]
  congr 1
  omega

/-- A string of 2^32 zeros and an empty one, written in either order,
give the same bytes. -/
theorem longStrings_collide :
    List.Forall₂ Item.SameShape
        [.bytes (List.replicate (2 ^ 32) 0), .bytes []]
        [.bytes [], .bytes (List.replicate (2 ^ 32) 0)] ∧
      [Item.bytes (List.replicate (2 ^ 32) 0), .bytes []] ≠
        [.bytes [], .bytes (List.replicate (2 ^ 32) 0)] ∧
      writeAll [.bytes (List.replicate (2 ^ 32) 0), .bytes []] =
        writeAll [.bytes [], .bytes (List.replicate (2 ^ 32) 0)] := by
  refine ⟨.cons trivial (.cons trivial .nil), fun heq => ?_,
    writeAll_swapped (by decide)⟩
  have hlen := congrArg List.length (Item.bytes.inj (List.cons.inj heq).1)
  rw [List.length_replicate, List.length_nil] at hlen
  exact absurd hlen (by decide)

end ZephyrChain
