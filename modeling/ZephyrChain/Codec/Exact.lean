/-
The canonical readers are exact: a field can be read from one byte
string only. This is what makes the wire formats of the protocol free of
a second encoding; the records built from these fields inherit it.
-/
import ZephyrChain.Codec
import ZephyrChain.Lib.ExactReader

namespace ZephyrChain

open Lib

/-- A count written for a row of a bounded length reads as that
length. -/
theorem toNat_count {n k : Nat} (h : n ≤ k) (hk : k < 2 ^ 32) :
    (UInt32.ofNat n).toNat = n := by
  rw [UInt32.toNat_ofNat']
  exact Nat.mod_eq_of_lt (by omega)

namespace Reader

/-- Report every failure of a reader as `e`: the source's
`if err != nil { return e }`. -/
def orFail {α : Type} (e : Error) (p : Reader α) : Reader α := fun data =>
  failWith e (p data)

@[simp] theorem run_orFail {α : Type} {e : Error} {p : Reader α}
    {data : Bytes} {x : α × Bytes} :
    (orFail e p).run data = .ok x ↔ p.run data = .ok x :=
  failWith_eq_ok

-- ==== fixed fields

theorem run_take {n : Nat} {ts v rest : Bytes} :
    (take n).run ts = .ok (v, rest) ↔ ts = v ++ rest ∧ v.length = n := by
  show (if n ≤ ts.length then _ else _) = _ ↔ _
  split
  case isTrue hle =>
    rw [Except.ok.injEq, Prod.mk.injEq]
    constructor
    · rintro ⟨rfl, rfl⟩
      exact ⟨(List.take_append_drop n ts).symm, List.length_take_of_le hle⟩
    · rintro ⟨rfl, rfl⟩
      exact ⟨List.take_left, List.drop_left⟩
  case isFalse hgt =>
    constructor
    · intro h
      cases h
    · rintro ⟨rfl, rfl⟩
      exact absurd (by rw [List.length_append]; omega) hgt

/-- A field of fixed width: what is taken is the encoding of what it is
read as. -/
theorem exact_of_take {α : Type} {n : Nat} {dec : Bytes → α}
    {enc : α → Bytes} (hlen : ∀ a, (enc a).length = n)
    (hdec : ∀ a, dec (enc a) = a)
    (henc : ∀ b, b.length = n → enc (dec b) = b) :
    Exact (do let b ← take n; return dec b : Reader α) enc
      fun _ => True := by
  intro ts a rest
  simp only [run_bind_eq_ok, run_pure_eq_ok, run_take]
  constructor
  · rintro ⟨b, _, ⟨rfl, hb⟩, rfl, rfl⟩
    rw [henc b hb]
    exact ⟨rfl, trivial⟩
  · rintro ⟨rfl, -⟩
    exact ⟨enc a, rest, ⟨rfl, hlen a⟩, (hdec a).symm, rfl⟩

/-- A word stored as the number it was read as. -/
theorem beBytes_ofBe_mod {b : Bytes} {w n : Nat} (hb : b.length = w)
    (hn : n = 256 ^ w) : beBytes w (ofBe b % n) = b := by
  have hlt : ofBe b < n := by
    rw [hn, ← hb]
    exact ofBe_lt b
  rw [Nat.mod_eq_of_lt hlt, ← hb, beBytes_ofBe]

theorem exact_u8 : Exact u8 Writer.u8 fun _ => True := by
  refine exact_of_take (fun _ => rfl) (fun _ => rfl) ?_
  intro b hb
  obtain ⟨x, rfl⟩ := List.length_eq_one_iff.1 hb
  rfl

theorem exact_u16 : Exact u16 Writer.u16 fun _ => True := by
  refine exact_of_take Writer.length_u16 ?_ ?_
  · intro v
    rw [Writer.u16, ofBe_beBytes_of_lt v.toNat_lt, UInt16.ofNat_toNat]
  · intro b hb
    rw [Writer.u16, UInt16.toNat_ofNat']
    exact beBytes_ofBe_mod hb (by decide)

theorem exact_u32 : Exact u32 Writer.u32 fun _ => True := by
  refine exact_of_take Writer.length_u32 ?_ ?_
  · intro v
    rw [Writer.u32, ofBe_beBytes_of_lt v.toNat_lt, UInt32.ofNat_toNat]
  · intro b hb
    rw [Writer.u32, UInt32.toNat_ofNat']
    exact beBytes_ofBe_mod hb (by decide)

theorem exact_u64 : Exact u64 Writer.u64 fun _ => True := by
  refine exact_of_take Writer.length_u64 ?_ ?_
  · intro v
    rw [Writer.u64, ofBe_beBytes_of_lt v.toNat_lt, UInt64.ofNat_toNat]
  · intro b hb
    rw [Writer.u64, UInt64.toNat_ofNat']
    exact beBytes_ofBe_mod hb (by decide)

theorem exact_fixed : Exact fixed Writer.fixed fun _ => True := by
  refine exact_of_take Writer.length_fixed ?_ ?_
  · exact fun v => Bytes32.copy32_toList v
  · exact fun b hb => Bytes32.toList_copy32 hb

theorem exact_bool : Exact bool Writer.bool fun _ => True := by
  intro ts v rest
  simp only [bool, run_bind_eq_ok, exact_u8 _ _ _, and_true]
  constructor
  · rintro ⟨b, mid, rfl, h⟩
    split at h
    case isTrue hb =>
      obtain ⟨rfl, rfl⟩ := run_pure_eq_ok.1 h
      rw [hb]
      rfl
    case isFalse =>
      split at h
      case isTrue hb =>
        obtain ⟨rfl, rfl⟩ := run_pure_eq_ok.1 h
        rw [hb]
        rfl
      case isFalse => cases h
  · rintro rfl
    cases v
    case false => exact ⟨0, rest, rfl, rfl⟩
    case true => exact ⟨1, rest, rfl, rfl⟩

-- ==== byte strings

/-- The limit is a 32-bit number, so the length prefix of a byte string
within it has not wrapped. -/
theorem exact_bytes (max : UInt32) :
    Exact (bytes max) Writer.bytes fun v => v.length ≤ max.toNat := by
  intro ts v rest
  simp only [bytes, run_bind_eq_ok, exact_u32 _ _ _, run_lift_eq_ok,
    refuse_eq_ok, run_take, UInt32.not_lt, UInt32.le_iff_toNat_le, and_true]
  constructor
  · rintro ⟨n, _, rfl, _, _, ⟨hmax, rfl⟩, rfl, hlen⟩
    refine ⟨?_, hlen ▸ hmax⟩
    rw [Writer.bytes, hlen, UInt32.ofNat_toNat, List.append_assoc]
  · rintro ⟨rfl, hv⟩
    have hn := toNat_count hv max.toNat_lt
    exact ⟨UInt32.ofNat v.length, _, List.append_assoc .., (), _,
      ⟨hn.symm ▸ hv, rfl⟩, rfl, hn.symm⟩

end Reader

-- ==== records

/-- A row behind its length, as `u32`. -/
theorem Reader.row32 {α β : Type} {p : Reader α} {enc : α → Bytes}
    {ok : α → Prop} {f : List α → Reader β} {known : β → Prop}
    {encs : β → Bytes} {oks : β → Prop} {k : Nat} {c : UInt32 → Prop}
    [DecidablePred c] {e : Error} (get : β → List α) (fits : Nat → Prop)
    (hp : Exact p enc ok) (hc : ∀ n : UInt32, ¬ c n ↔ fits n.toNat)
    (hfits : ∀ n, fits n → n ≤ k) (hk : k < 2 ^ 32)
    (hf : ∀ xs, Completes (f xs) (fun b => known b ∧ get b = xs) encs
      oks) :
    Completes (do
        let n ← Reader.u32
        (liftM (Lib.refuse (c n) e) : Reader Unit)
        let xs ← readMany p n.toNat
        f xs) known
      (fun b => Writer.u32 (UInt32.ofNat (get b).length) ++
        ((get b).flatMap enc ++ encs b))
      fun b => (fits (get b).length ∧ ∀ x ∈ get b, ok x) ∧ oks b :=
  Completes.row get (fun _ => fits) Reader.exact_u32
    (fun _ => UInt32.ofNat_toNat)
    (fun _ _ hn => toNat_count (hfits _ hn) hk) (fun _ n _ => hc n) hp hf

-- ==== whole payloads

theorem run_done_eq_ok {ts rest : Bytes} {u : Unit} :
    Reader.done.run ts = .ok (u, rest) ↔ ts = [] ∧ rest = [] := by
  show (if ts = [] then _ else _) = _ ↔ _
  split
  case isTrue h =>
    subst h
    constructor
    · intro hrun
      cases hrun
      exact ⟨rfl, rfl⟩
    · rintro ⟨-, rfl⟩
      rfl
  case isFalse h =>
    constructor
    · intro hrun
      cases hrun
    · rintro ⟨rfl, -⟩
      exact absurd rfl h

/-- A payload is read when its fields are, with nothing behind them. -/
theorem parseWith_eq_ok {α : Type} {e : Error} {p : Reader α}
    {data : Bytes} {a : α} :
    parseWith e p data = .ok a ↔ p.run data = .ok (a, []) := by
  have hrun : ∀ x : α × Bytes,
      (do let a ← p; Reader.done; return a : Reader α).run data = .ok x ↔
        p.run data = .ok (x.1, []) ∧ x.2 = [] := by
    rintro ⟨b, rest⟩
    simp only [run_bind_eq_ok, run_done_eq_ok, run_pure_eq_ok]
    constructor
    · rintro ⟨b', _, hb, _, _, ⟨rfl, rfl⟩, rfl, rfl⟩
      exact ⟨hb, rfl⟩
    · rintro ⟨hb, rfl⟩
      exact ⟨b, [], hb, (), [], ⟨rfl, rfl⟩, rfl, rfl⟩
  unfold parseWith
  split
  case h_1 b rest heq =>
    obtain ⟨hb, -⟩ := (hrun (b, rest)).1 heq
    rw [hb, Except.ok.injEq, Except.ok.injEq, Prod.mk.injEq]
    exact ⟨fun h => ⟨h, rfl⟩, fun h => h.1⟩
  case h_2 err heq =>
    constructor
    · intro h
      cases h
    · intro h
      rw [(hrun (a, [])).2 ⟨h, rfl⟩] at heq
      cases heq

/-- A record in a payload of its own. -/
theorem parseWith_exact {α : Type} {p : Reader α} {enc : α → Bytes}
    {ok : α → Prop} (h : Exact p enc ok) {e : Error} {data : Bytes}
    {a : α} : parseWith e p data = .ok a ↔ data = enc a ∧ ok a := by
  rw [parseWith_eq_ok, h, List.append_nil]

section checked

variable {α : Type} {p : Reader α} {enc : α → Bytes} {ok : α → Prop}
  {check : α → Except Error Unit} {e : Error} {data : Bytes} {a : α}

/-- A record in a payload of its own, checked once it is read. -/
theorem parse_checked (h : Exact p enc ok) :
    (do let a ← parseWith e p data; check a; return a : Except Error α) =
        .ok a ↔
      data = enc a ∧ ok a ∧ check a = .ok () := by
  simp only [ok_iff, parseWith_exact h]
  constructor
  · rintro ⟨_, ⟨hdata, hok⟩, hcheck, rfl⟩
    exact ⟨hdata, hok, hcheck⟩
  · rintro ⟨hdata, hok, hcheck⟩
    exact ⟨a, ⟨hdata, hok⟩, hcheck, rfl⟩

/-- The reader's own limits are part of the check. -/
theorem parse_checked_of (h : Exact p enc ok)
    (hok : ∀ a, check a = .ok () → ok a) :
    (do let a ← parseWith e p data; check a; return a : Except Error α) =
        .ok a ↔
      data = enc a ∧ check a = .ok () := by
  rw [parse_checked h, and_iff_right_of_imp (hok a)]

end checked

/-- A record with a parser of its own, behind its length. -/
theorem exact_nested {α : Type} {parse : Bytes → Except Error α}
    {enc : α → Bytes} {ok : α → Prop} {max : UInt32}
    (hparse : ∀ data a, parse data = .ok a ↔ data = enc a ∧ ok a)
    (hlen : ∀ a, ok a → (enc a).length ≤ max.toNat) :
    Exact (do let raw ← Reader.bytes max; liftM (parse raw) : Reader α)
      (fun a => Writer.bytes (enc a)) ok := by
  intro ts a rest
  simp only [run_bind_eq_ok, run_lift_eq_ok, Reader.exact_bytes _ _ _ _,
    hparse]
  constructor
  · rintro ⟨_, _, ⟨rfl, -⟩, ⟨rfl, ha⟩, rfl⟩
    exact ⟨rfl, ha⟩
  · rintro ⟨rfl, ha⟩
    exact ⟨_, _, ⟨rfl, hlen a ha⟩, ⟨rfl, ha⟩, rfl⟩

theorem separates_bytes :
    Separates Writer.bytes fun v => v.length < 2 ^ 32 :=
  fun _ _ _ _ hv hw h => Writer.bytes_append_inj hv hw h

end ZephyrChain
