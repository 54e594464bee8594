/-
Sorting a list by a key. Where the keys are distinct, the order the list
came in does not matter: `insertionSort_eq_of_perm`. Where the elements
can be told from the keys, equal keys are equal lists: `eq_of_map_eq`.

`Sorting` is a sort that need not be stable. In an order that tells all
elements apart it has no choice, and the place of an element is the
number of elements before it.
-/
import Mathlib.Data.List.Sort

namespace ZephyrChain.Lib

variable {α β : Type} {le : β → β → Prop} [DecidableRel le]

section Keyed

variable [Std.Total le] [IsTrans β le] {key : α → β}

theorem pairwise_insertionSort_key (xs : List α) :
    (xs.insertionSort fun a b => le (key a) (key b)).Pairwise
      fun a b => le (key a) (key b) := by
  have : Std.Total fun a b : α => le (key a) (key b) :=
    ⟨fun a b => Std.Total.total (key a) (key b)⟩
  have : IsTrans α fun a b => le (key a) (key b) :=
    ⟨fun a b c => IsTrans.trans (key a) (key b) (key c)⟩
  exact List.pairwise_insertionSort _ xs

/-- Where a key tells its element, there is one sorted list. -/
theorem insertionSort_eq_of_key [Std.Antisymm le] {xs ys : List α}
    (hperm : xs.Perm ys)
    (hkey : ∀ a ∈ xs, ∀ b ∈ xs, key a = key b → a = b) :
    (xs.insertionSort fun a b => le (key a) (key b)) =
      ys.insertionSort fun a b => le (key a) (key b) := by
  have hxs := List.perm_insertionSort (fun a b => le (key a) (key b)) xs
  have hys := List.perm_insertionSort (fun a b => le (key a) (key b)) ys
  refine List.Perm.eq_of_pairwise ?_ (pairwise_insertionSort_key xs)
    (pairwise_insertionSort_key ys) (hxs.trans (hperm.trans hys.symm))
  intro a b ha hb hab hba
  exact hkey a (hxs.mem_iff.1 ha) b (hperm.mem_iff.2 (hys.mem_iff.1 hb))
    (antisymm hab hba)

/-- Two elements with distinct keys are ordered one way only. -/
theorem insertionSort_eq_of_perm [Std.Antisymm le] {xs ys : List α}
    (hperm : xs.Perm ys) (hnodup : (xs.map key).Nodup) :
    (xs.insertionSort fun a b => le (key a) (key b)) =
      ys.insertionSort fun a b => le (key a) (key b) :=
  insertionSort_eq_of_key hperm fun _ ha _ hb =>
    List.inj_on_of_nodup_map hnodup ha hb

end Keyed

omit [DecidableRel le] in
theorem eq_of_map_eq {key : α → β} {xs ys : List α}
    (h : xs.map key = ys.map key)
    (hinj : ∀ x ∈ xs, ∀ y ∈ ys, key x = key y → x = y) : xs = ys := by
  have hlength : xs.length = ys.length := by
    rw [← List.length_map key, h, List.length_map]
  refine List.ext_getElem hlength fun i hi hi' => ?_
  refine hinj _ (List.getElem_mem hi) _ (List.getElem_mem hi') ?_
  have hget := List.getElem_of_eq h (by rwa [List.length_map])
  rwa [List.getElem_map, List.getElem_map] at hget

-- ==== any sort

/-- A sort that arranges a list so that nothing comes before a smaller
element. -/
structure Sorting {α : Type} (less : α → α → Prop) where
  run : List α → List α
  perm : ∀ xs, (run xs).Perm xs
  sorted : ∀ xs, (run xs).Pairwise fun a b => ¬ less b a

/-- The place of an element is the number of smaller ones. -/
theorem countP_lt_of_sorted [LinearOrder β] {key : α → β} {xs : List α}
    (h : xs.Pairwise fun a b => key a < key b) {i : Nat} {x : α}
    (hx : xs[i]? = some x) : xs.countP (key · < key x) = i := by
  induction xs generalizing i with
  | nil => cases hx
  | cons y ys ih =>
    obtain ⟨hy, hys⟩ := List.pairwise_cons.1 h
    cases i with
    | zero =>
      obtain rfl : y = x := Option.some.inj hx
      refine List.countP_eq_zero.2 fun z hz => ?_
      rw [decide_eq_true_iff, not_lt]
      rcases List.mem_cons.1 hz with rfl | hz
      · exact le_rfl
      · exact (hy z hz).le
    | succ i =>
      have hlt := hy x (List.mem_of_getElem? hx)
      rw [List.countP_cons, ih hys hx, if_pos (decide_eq_true hlt)]

end ZephyrChain.Lib
