/-
Stripping words from the ends of a list. A set of words is given as a
list; `strip` removes them from the front of a list for as long as it
starts with one, then from its back.

The result starts and ends with none of the words, so that stripping it
again changes nothing (`strip_strip`): a reader that strips and a writer
that strips agree.
-/
import Mathlib.Data.List.Basic
import Mathlib.Data.List.Infix

namespace ZephyrChain.Lib

variable {α : Type} [DecidableEq α] (words : List (List α))

/-- The first of the words the list starts with. -/
def leadingWord (xs : List α) : Option (List α) :=
  words.find? fun w => w.isPrefixOf xs

/-- Remove words from the front, at most `n` of them. -/
def stripLeftFrom : Nat → List α → List α
  | 0, xs => xs
  | n + 1, xs =>
    match leadingWord words xs with
    | some w => stripLeftFrom n (xs.drop w.length)
    | none => xs

/-- Remove words from the front until the list starts with none. -/
def stripLeft (xs : List α) : List α := stripLeftFrom words xs.length xs

/-- Remove words from the back until the list ends with none. -/
def stripRight (xs : List α) : List α :=
  (stripLeft (words.map List.reverse) xs.reverse).reverse

def strip (xs : List α) : List α := stripRight words (stripLeft words xs)

variable {words}

theorem leadingWord_eq_none {xs : List α} :
    leadingWord words xs = none ↔ ∀ w ∈ words, ¬ w <+: xs := by
  simp [leadingWord]

theorem leadingWord_eq_some {xs w : List α}
    (h : leadingWord words xs = some w) : w ∈ words ∧ w <+: xs := by
  refine ⟨List.mem_of_find?_eq_some h, ?_⟩
  simpa using List.find?_some h

theorem stripLeftFrom_suffix (n : Nat) (xs : List α) :
    stripLeftFrom words n xs <:+ xs := by
  induction n generalizing xs with
  | zero => exact List.suffix_rfl
  | succ n ih =>
    unfold stripLeftFrom
    cases leadingWord words xs with
    | none => exact List.suffix_rfl
    | some w => exact (ih _).trans (List.drop_suffix _ _)

/-- With fuel for every element, no word is left in front. -/
theorem leadingWord_stripLeftFrom (hne : ∀ w ∈ words, w ≠ []) (n : Nat)
    (xs : List α) (hn : xs.length ≤ n) :
    leadingWord words (stripLeftFrom words n xs) = none := by
  induction n generalizing xs with
  | zero =>
    have hxs : xs = [] := List.length_eq_zero_iff.1 (Nat.le_zero.1 hn)
    subst hxs
    refine leadingWord_eq_none.2 fun w hw hp => ?_
    exact hne w hw (List.prefix_nil.1 hp)
  | succ n ih =>
    unfold stripLeftFrom
    cases hlead : leadingWord words xs with
    | none => exact hlead
    | some w =>
      obtain ⟨hw, hp⟩ := leadingWord_eq_some hlead
      have hpos := List.length_pos_iff.2 (hne w hw)
      have hle := hp.length_le
      refine ih _ ?_
      rw [List.length_drop]
      omega

theorem leadingWord_stripLeft (hne : ∀ w ∈ words, w ≠ []) (xs : List α) :
    leadingWord words (stripLeft words xs) = none :=
  leadingWord_stripLeftFrom hne xs.length xs (Nat.le_refl _)

theorem stripLeft_of_none {xs : List α} (h : leadingWord words xs = none) :
    stripLeft words xs = xs := by
  unfold stripLeft
  cases xs with
  | nil => rfl
  | cons x xs =>
    rw [List.length_cons, stripLeftFrom, h]

theorem stripRight_initial (xs : List α) : stripRight words xs <+: xs := by
  have hsuffix : stripLeft (words.map List.reverse) xs.reverse <:+
      xs.reverse := stripLeftFrom_suffix _ _
  have h := List.reverse_prefix.2 hsuffix
  rwa [List.reverse_reverse] at h

theorem length_strip_le (xs : List α) :
    (strip words xs).length ≤ xs.length :=
  ((stripRight_initial _).length_le).trans
    (stripLeftFrom_suffix xs.length xs).length_le

theorem stripRight_stripRight (hne : ∀ w ∈ words, w ≠ []) (xs : List α) :
    stripRight words (stripRight words xs) = stripRight words xs := by
  have hrev : ∀ w ∈ words.map List.reverse, w ≠ [] := by
    rintro w hw rfl
    obtain ⟨v, hv, hrev⟩ := List.mem_map.1 hw
    exact hne v hv (List.reverse_eq_nil_iff.1 hrev)
  unfold stripRight
  rw [List.reverse_reverse,
    stripLeft_of_none (leadingWord_stripLeft hrev xs.reverse)]

/-- What `strip` leaves has nothing left to strip. The back is clean by
construction; the front is, because a word in front of the result would
be one in front of the list it is a prefix of. -/
theorem strip_strip (hne : ∀ w ∈ words, w ≠ []) (xs : List α) :
    strip words (strip words xs) = strip words xs := by
  have hfront : leadingWord words (strip words xs) = none := by
    have hclean := leadingWord_eq_none.1 (leadingWord_stripLeft hne xs)
    refine leadingWord_eq_none.2 fun w hw hp => ?_
    exact hclean w hw (hp.trans (stripRight_initial _))
  rw [strip, stripLeft_of_none hfront]
  exact stripRight_stripRight hne _

end ZephyrChain.Lib
