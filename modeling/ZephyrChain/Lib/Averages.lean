/-
Medians and averages stay inside the range of their samples.

# Ranks

In a sorted list the entry at an index is bounded by how many entries
lie beyond a value: `le_getElem_of_countP`, `getElem_le_of_countP`. A
median is bounded as soon as fewer than half of the entries lie beyond
the bound on either side (`median_mem`), which covers a plain range and
a list some of whose entries were replaced.

# Averages

`average_mem` is the floor of a weighted average, `blend_mem` the floor
of a moving one.
-/
import Mathlib.Algebra.Ring.Nat
import Mathlib.Data.List.Sort

namespace ZephyrChain.Lib

-- ==== ranks

section Rank

variable {α : Type} [LinearOrder α] {xs : List α} {b : α} {i : Nat}

theorem le_getElem_of_countP (hs : xs.Pairwise (· ≤ ·)) (hi : i < xs.length)
    (hcount : xs.countP (fun x => decide (x < b)) ≤ i) : b ≤ xs[i] := by
  by_contra hlt
  -- every entry up to this one lies below the bound as well
  have hall : ∀ x ∈ xs.take (i + 1), decide (x < b) = true := by
    intro x hx
    obtain ⟨j, hj, rfl⟩ := List.mem_take_iff_getElem.1 hx
    have hle : xs[j] ≤ xs[i] := by
      rcases Nat.lt_or_eq_of_le (Nat.le_of_lt_succ (by omega : j < i + 1))
        with h | rfl
      · exact List.pairwise_iff_getElem.1 hs j i _ hi h
      · exact le_refl _
    exact decide_eq_true (lt_of_le_of_lt hle (not_le.1 hlt))
  have hsub := (List.take_sublist (i + 1) xs).countP_le
    (p := fun x => decide (x < b))
  rw [List.countP_eq_length.2 hall, List.length_take] at hsub
  omega

theorem getElem_le_of_countP (hs : xs.Pairwise (· ≤ ·)) (hi : i < xs.length)
    (hcount : xs.countP (fun x => decide (b < x)) + i < xs.length) :
    xs[i] ≤ b := by
  by_contra hlt
  have hall : ∀ x ∈ xs.drop i, decide (b < x) = true := by
    intro x hx
    obtain ⟨j, hj, rfl⟩ := List.mem_drop_iff_getElem.1 hx
    have hle : xs[i] ≤ xs[i + j] := by
      rcases Nat.eq_zero_or_pos j with rfl | h
      · exact le_refl _
      · exact List.pairwise_iff_getElem.1 hs i (i + j) hi (by omega) (by omega)
    exact decide_eq_true (lt_of_lt_of_le (not_le.1 hlt) hle)
  have hsub := (List.drop_sublist i xs).countP_le
    (p := fun x => decide (b < x))
  rw [List.countP_eq_length.2 hall, List.length_drop] at hsub
  omega

end Rank

-- ==== medians

/-- The middle of a sorted list, or half way between its two middles. -/
def median (xs : List Nat) : Nat :=
  let low := xs.getD (xs.length / 2 - 1) 0
  let high := xs.getD (xs.length / 2) 0
  if xs.length % 2 = 1 then high else low + (high - low) / 2

theorem median_mem {xs : List Nat} {lo hi : Nat} (hs : xs.Pairwise (· ≤ ·))
    (hlow : 2 * xs.countP (fun x => decide (x < lo)) < xs.length)
    (hhigh : 2 * xs.countP (fun x => decide (hi < x)) < xs.length) :
    lo ≤ median xs ∧ median xs ≤ hi := by
  have hat : ∀ i, (hi' : i < xs.length) → xs.getD i 0 = xs[i] :=
    fun i hi' => by rw [List.getD_eq_getElem?_getD,
      List.getElem?_eq_getElem hi', Option.getD_some]
  have hmid : xs.length / 2 < xs.length := by omega
  have hlo : lo ≤ xs[xs.length / 2] :=
    le_getElem_of_countP hs hmid (by omega)
  have hup : xs.length % 2 = 1 → xs[xs.length / 2] ≤ hi := fun hodd =>
    getElem_le_of_countP hs hmid (by omega)
  unfold median
  simp only [hat _ hmid]
  split
  case isTrue hodd => exact ⟨hlo, hup hodd⟩
  case isFalse heven =>
    have hprev : xs.length / 2 - 1 < xs.length := by omega
    have hle : xs[xs.length / 2 - 1] ≤ xs[xs.length / 2] :=
      List.pairwise_iff_getElem.1 hs _ _ hprev hmid (by omega)
    have hlo' : lo ≤ xs[xs.length / 2 - 1] :=
      le_getElem_of_countP hs hprev (by omega)
    have hhi' : xs[xs.length / 2] ≤ hi :=
      getElem_le_of_countP hs hmid (by omega)
    rw [hat _ hprev]
    omega

/-- A median of samples of which fewer than half were replaced. -/
theorem median_mem_of_replaced {xs kept new : List Nat} {lo hi : Nat}
    (hs : xs.Pairwise (· ≤ ·)) (hperm : xs.Perm (kept ++ new))
    (hfew : 2 * new.length < xs.length)
    (h : ∀ x ∈ kept, lo ≤ x ∧ x ≤ hi) :
    lo ≤ median xs ∧ median xs ≤ hi := by
  refine median_mem hs ?_ ?_
  · rw [hperm.countP_eq, List.countP_append,
      List.countP_eq_zero.2 fun x hx => by simpa using (h x hx).1]
    have := List.countP_le_length (l := new) (p := fun x => decide (x < lo))
    omega
  · rw [hperm.countP_eq, List.countP_append,
      List.countP_eq_zero.2 fun x hx => by simpa using (h x hx).2]
    have := List.countP_le_length (l := new) (p := fun x => decide (hi < x))
    omega

/-- A median of samples that all lie in a range. -/
theorem median_mem_of_forall {xs : List Nat} {lo hi : Nat}
    (hs : xs.Pairwise (· ≤ ·)) (hne : xs ≠ [])
    (h : ∀ x ∈ xs, lo ≤ x ∧ x ≤ hi) : lo ≤ median xs ∧ median xs ≤ hi := by
  have hperm : xs.Perm (xs ++ []) := by rw [List.append_nil]
  exact median_mem_of_replaced hs hperm (List.length_pos_iff.2 hne) h

-- ==== averages

/-- The floor of a moving average, in basis points. There is nothing to
average with before the first value. -/
def blend (prior current alpha : Nat) : Nat :=
  if prior = 0 then current
  else (prior * (10000 - alpha) + current * alpha) / 10000

theorem blend_mem {prior current alpha lo hi : Nat} (ha : alpha ≤ 10000)
    (hprior : prior ≠ 0 → lo ≤ prior ∧ prior ≤ hi)
    (hcurrent : lo ≤ current ∧ current ≤ hi) :
    lo ≤ blend prior current alpha ∧ blend prior current alpha ≤ hi := by
  unfold blend
  split
  case isTrue => exact hcurrent
  case isFalse hne =>
    obtain ⟨hlow, hhigh⟩ := hprior hne
    have hsum : ∀ n, n * (10000 - alpha) + n * alpha = n * 10000 := by
      intro n
      rw [← Nat.mul_add]
      congr 1
      omega
    have h₁ := Nat.mul_le_mul_right (10000 - alpha) hlow
    have h₂ := Nat.mul_le_mul_right alpha hcurrent.1
    have h₃ := Nat.mul_le_mul_right (10000 - alpha) hhigh
    have h₄ := Nat.mul_le_mul_right alpha hcurrent.2
    have hlo := hsum lo
    have hhi := hsum hi
    omega

theorem average_mem {α : Type} {value weight : α → Nat} {xs : List α}
    {lo hi : Nat} (h : ∀ x ∈ xs, lo ≤ value x ∧ value x ≤ hi)
    (hpos : 0 < (xs.map weight).sum) :
    lo ≤ (xs.map fun x => value x * weight x).sum / (xs.map weight).sum ∧
      (xs.map fun x => value x * weight x).sum / (xs.map weight).sum ≤
        hi := by
  have hsums : lo * (xs.map weight).sum ≤
      (xs.map fun x => value x * weight x).sum ∧
      (xs.map fun x => value x * weight x).sum ≤
        hi * (xs.map weight).sum := by
    clear hpos
    induction xs with
    | nil => exact ⟨Nat.le_refl 0, Nat.le_refl 0⟩
    | cons x xs ih =>
      obtain ⟨hlow, hhigh⟩ := ih fun y hy => h y (List.mem_cons_of_mem x hy)
      obtain ⟨hl, hr⟩ := h x List.mem_cons_self
      simp only [List.map_cons, List.sum_cons, Nat.mul_add]
      exact ⟨Nat.add_le_add (Nat.mul_le_mul_right _ hl) hlow,
        Nat.add_le_add (Nat.mul_le_mul_right _ hr) hhigh⟩
  exact ⟨(Nat.le_div_iff_mul_le hpos).2 hsums.1,
    Nat.div_le_of_le_mul (by
      rw [Nat.mul_comm]
      exact hsums.2)⟩

end ZephyrChain.Lib
