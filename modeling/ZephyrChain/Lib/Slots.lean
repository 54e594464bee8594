/-
Weighted slots. The elements of a list own consecutive half-open
intervals of slots, as long as their weights. A slot below the total
weight has one owner, and among any run of consecutive slots as long as
the total, taken round and round, every element owns its weight.
-/
import Mathlib.Algebra.Ring.Nat
import Mathlib.Data.Nat.Count

namespace ZephyrChain.Lib

variable {α : Type} {weight : α → Nat} {xs : List α} {x : α} {slot : Nat}

def totalWeight (weight : α → Nat) (xs : List α) : Nat := (xs.map weight).sum

/-- The interval of `x` behind the elements in front of it holds the
slot. -/
def Owns (weight : α → Nat) (xs : List α) (slot : Nat) (x : α) : Prop :=
  ∃ pre post, xs = pre ++ x :: post ∧ totalWeight weight pre ≤ slot ∧
    slot < totalWeight weight pre + weight x

/-- The owner of a slot, looked for from the front. -/
def ownerAt (weight : α → Nat) : List α → Nat → Option α
  | [], _ => none
  | x :: xs, slot =>
    if slot < weight x then some x else ownerAt weight xs (slot - weight x)

theorem totalWeight_cons (x : α) (xs : List α) :
    totalWeight weight (x :: xs) = weight x + totalWeight weight xs :=
  List.sum_cons

theorem ownerAt_cons_add (y : α) (xs : List α) (slot : Nat) :
    ownerAt weight (y :: xs) (weight y + slot) = ownerAt weight xs slot := by
  rw [ownerAt, if_neg (by omega), Nat.add_sub_cancel_left]

theorem ownerAt_eq_some_iff :
    ownerAt weight xs slot = some x ↔ Owns weight xs slot x := by
  constructor
  · intro h
    induction xs generalizing slot with
    | nil => cases h
    | cons y xs ih =>
      unfold ownerAt at h
      split at h
      case isTrue hlt =>
        obtain rfl := Option.some.inj h
        exact ⟨[], xs, rfl, Nat.zero_le _, (Nat.zero_add _).symm ▸ hlt⟩
      case isFalse hge =>
        obtain ⟨pre, post, rfl, hlo, hhi⟩ := ih h
        refine ⟨y :: pre, post, rfl, ?_, ?_⟩
        · rw [totalWeight_cons]
          omega
        · rw [totalWeight_cons]
          omega
  · rintro ⟨pre, post, rfl, hlo, hhi⟩
    induction pre generalizing slot with
    | nil => exact if_pos ((Nat.zero_add (weight x)) ▸ hhi)
    | cons y pre ih =>
      rw [totalWeight_cons] at hlo hhi
      obtain ⟨rest, rfl⟩ := Nat.exists_eq_add_of_le
        ((Nat.le_add_right _ _).trans hlo)
      rw [List.cons_append, ownerAt_cons_add]
      exact ih (by omega) (by omega)

theorem mem_of_ownerAt (h : ownerAt weight xs slot = some x) : x ∈ xs := by
  obtain ⟨pre, post, rfl, _⟩ := ownerAt_eq_some_iff.1 h
  exact List.mem_append_right _ List.mem_cons_self

theorem exists_ownerAt (h : slot < totalWeight weight xs) :
    ∃ x, ownerAt weight xs slot = some x := by
  induction xs generalizing slot with
  | nil => exact absurd h (Nat.not_lt_zero _)
  | cons y xs ih =>
    rw [totalWeight_cons] at h
    by_cases hlt : slot < weight y
    · exact ⟨y, if_pos hlt⟩
    · rw [ownerAt, if_neg hlt]
      exact ih (by omega)

variable [DecidableEq α]

/-- An element owns as many slots as it weighs. -/
theorem count_ownerAt (hnodup : xs.Nodup) (hx : x ∈ xs) :
    (totalWeight weight xs).count (fun slot =>
      ownerAt weight xs slot = some x) = weight x := by
  induction xs with
  | nil => cases hx
  | cons y xs ih =>
    obtain ⟨hy, hnodup⟩ := List.nodup_cons.1 hnodup
    rw [totalWeight_cons, Nat.count_add]
    simp only [ownerAt_cons_add]
    have hhere : ∀ slot < weight y, ownerAt weight (y :: xs) slot = some y :=
      fun slot hlt => if_pos hlt
    rcases List.mem_cons.1 hx with rfl | hmem
    · rw [Nat.count_iff_forall.2 hhere, Nat.count_of_forall_not, Nat.add_zero]
      exact fun slot _ h => hy (mem_of_ownerAt h)
    · rw [ih hnodup hmem, Nat.count_of_forall_not, Nat.zero_add]
      intro slot hlt h
      rw [hhere slot hlt] at h
      exact hy (Option.some.inj h ▸ hmem)

/-- So it does among the turns from any slot on. -/
theorem count_turns (hnodup : xs.Nodup) (hx : x ∈ xs) (start : Nat) :
    (totalWeight weight xs).count (fun i =>
      ownerAt weight xs ((start + i) % totalWeight weight xs) = some x) =
        weight x := by
  have hround : ∀ slot, (totalWeight weight xs + slot) %
      totalWeight weight xs = slot % totalWeight weight xs :=
    fun slot => Nat.add_mod_left _ slot
  -- the slots below `start + total`, counted from either end
  have hfront := Nat.count_add (fun slot =>
    ownerAt weight xs (slot % totalWeight weight xs) = some x) start
    (totalWeight weight xs)
  have hback := Nat.count_add (fun slot =>
    ownerAt weight xs (slot % totalWeight weight xs) = some x)
    (totalWeight weight xs) start
  simp only [hround] at hback
  have hbelow : (totalWeight weight xs).count (fun slot =>
      ownerAt weight xs (slot % totalWeight weight xs) = some x) =
        weight x := by
    refine Eq.trans ?_ (@count_ownerAt α weight xs x _ hnodup hx)
    rw [Nat.count_eq_card_filter_range, Nat.count_eq_card_filter_range]
    refine congrArg Finset.card (Finset.filter_congr fun slot hslot => ?_)
    rw [Nat.mod_eq_of_lt (Finset.mem_range.1 hslot)]
  rw [Nat.add_comm] at hback
  omega

end ZephyrChain.Lib
