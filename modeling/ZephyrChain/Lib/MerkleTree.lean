/-
Binary hash trees over an arbitrary combining function. A node is
addressed by its level, counted from the leaves, and its position there.

Climbing from a leaf along the siblings of its path gives the root
(`climb_path`). Conversely, climbing from anything along anything reaches
a node only from the leaf below it that the position names, and in as
many steps as the node is high (`eq_leaf_of_climb`), and two nodes are
equal only if they are equally high and have the same leaves
(`leaves_eq_of_node_eq`).

Both ask the function to tell apart the pairs that are really combined,
on the climb and below the nodes, and to give none of the leaves. What is
combined last is compared first, so the inductions go down from the
nodes.
-/
import Mathlib.Data.Nat.Bitwise
import Mathlib.Tactic.Ring

namespace ZephyrChain.Lib.MerkleTree

variable {α : Type} {branch : α → α → α} {leaf : Nat → α}

/-- The node of a level at a position. -/
def node (branch : α → α → α) (leaf : Nat → α) : Nat → Nat → α
  | 0, i => leaf i
  | d + 1, i =>
    branch (node branch leaf d (2 * i)) (node branch leaf d (2 * i + 1))

/-- Combine upwards from a value at a position. -/
def climb (branch : α → α → α) : α → Nat → List α → α
  | current, _, [] => current
  | current, position, sibling :: siblings =>
    climb branch
      (if position % 2 = 0 then branch current sibling
        else branch sibling current)
      (position / 2) siblings

/-- The siblings of a path, from a level on. -/
def path (branch : α → α → α) (leaf : Nat → α) :
    Nat → Nat → Nat → List α
  | _, 0, _ => []
  | level, count + 1, position =>
    node branch leaf level (position ^^^ 1) ::
      path branch leaf (level + 1) count (position / 2)

theorem length_path (level count position : Nat) :
    (path branch leaf level count position).length = count := by
  induction count generalizing level position with
  | zero => rfl
  | succ count ih => rw [path, List.length_cons, ih]

-- ==== upwards

theorem climb_path (level count position : Nat) :
    climb branch (node branch leaf level position) position
        (path branch leaf level count position) =
      node branch leaf (level + count) (position / 2 ^ count) := by
  induction count generalizing level position with
  | zero => simp [path, climb]
  | succ count ih =>
    have hparent : (if position % 2 = 0 then
          branch (node branch leaf level position)
            (node branch leaf level (position ^^^ 1))
        else branch (node branch leaf level (position ^^^ 1))
          (node branch leaf level position)) =
        node branch leaf (level + 1) (position / 2) := by
      rw [node]
      by_cases heven : position % 2 = 0
      · rw [if_pos heven, Nat.xor_one_of_even (Nat.even_iff.2 heven),
          show 2 * (position / 2) = position by omega]
      · rw [if_neg heven, Nat.xor_one_of_odd (Nat.odd_iff.2 (by omega)),
          show 2 * (position / 2) = position - 1 by omega,
          show position - 1 + 1 = position by omega]
    rw [path, climb, hparent, ih, Nat.add_right_comm, Nat.div_div_eq_div_mul,
      ← Nat.pow_succ']
    rfl

-- ==== pairs

/-- The pairs combined below a node, and for it. -/
def pairs (branch : α → α → α) (leaf : Nat → α) : Nat → Nat → List (α × α)
  | 0, _ => []
  | d + 1, i =>
    (node branch leaf d (2 * i), node branch leaf d (2 * i + 1)) ::
      (pairs branch leaf d (2 * i) ++ pairs branch leaf d (2 * i + 1))

/-- The pair combined in the next step of a climb. -/
def joined (current : α) (position : Nat) (sibling : α) : α × α :=
  if position % 2 = 0 then (current, sibling) else (sibling, current)

/-- The pairs combined on a climb. -/
def climbed (branch : α → α → α) : α → Nat → List α → List (α × α)
  | _, _, [] => []
  | current, position, sibling :: siblings =>
    joined current position sibling ::
      climbed branch (branch.uncurry (joined current position sibling))
        (position / 2) siblings

/-- No pair of the first list is combined to the same as another pair of
the second. -/
def Apart (branch : α → α → α) (ps qs : List (α × α)) : Prop :=
  ∀ p ∈ ps, ∀ q ∈ qs, branch.uncurry p = branch.uncurry q → p = q

/-- Not what a pair of the list is combined to. -/
def Outside (branch : α → α → α) (ps : List (α × α)) (x : α) : Prop :=
  ∀ p ∈ ps, x ≠ branch.uncurry p

theorem climb_cons (current : α) (position : Nat) (sibling : α)
    (siblings : List α) :
    climb branch current position (sibling :: siblings) =
      climb branch (branch.uncurry (joined current position sibling))
        (position / 2) siblings := by
  rw [climb, joined]
  split
  case isTrue => rfl
  case isFalse => rfl

-- ==== downwards

theorem climb_concat (x : α) (position : Nat) (siblings : List α)
    (top : α) :
    climb branch x position (siblings ++ [top]) =
        branch.uncurry (joined (climb branch x position siblings)
          (position / 2 ^ siblings.length) top) ∧
      climbed branch x position (siblings ++ [top]) =
        climbed branch x position siblings ++
          [joined (climb branch x position siblings)
            (position / 2 ^ siblings.length) top] := by
  induction siblings generalizing x position with
  | nil =>
    rw [List.nil_append, climb_cons, climbed, List.length_nil, Nat.pow_zero,
      Nat.div_one]
    exact ⟨rfl, rfl⟩
  | cons y siblings ih =>
    rw [List.cons_append, climb_cons, climb_cons, climbed, climbed,
      (ih _ _).1, (ih _ _).2, Nat.div_div_eq_div_mul, ← Nat.pow_succ',
      List.length_cons, List.cons_append]
    exact ⟨rfl, rfl⟩

/-- The climb reads as many bits of the position as it has steps. -/
theorem climb_add_pow (x : α) (position : Nat) (siblings : List α) :
    climb branch x (position + 2 ^ siblings.length) siblings =
        climb branch x position siblings ∧
      climbed branch x (position + 2 ^ siblings.length) siblings =
        climbed branch x position siblings := by
  induction siblings generalizing x position with
  | nil => exact ⟨rfl, rfl⟩
  | cons y siblings ih =>
    have hjoined : joined x (position + 2 ^ (siblings.length + 1)) y =
        joined x position y := by
      rw [joined, joined, Nat.pow_succ, Nat.add_mul_mod_self_right]
    have hdiv : (position + 2 ^ (siblings.length + 1)) / 2 =
        position / 2 + 2 ^ siblings.length := by
      rw [Nat.pow_succ]
      omega
    rw [climb_cons, climb_cons, climbed, climbed, List.length_cons,
      hjoined, hdiv, (ih _ _).1, (ih _ _).2]
    exact ⟨rfl, rfl⟩

/-- Nothing but the leaf at the position climbs to a node. -/
theorem eq_leaf_of_climb {x : α} {siblings : List α}
    {position level i : Nat}
    (hapart : Apart branch (climbed branch x position siblings)
      (pairs branch leaf level i))
    (hleaf : ∀ j, Outside branch (climbed branch x position siblings)
      (leaf j))
    (hx : Outside branch (pairs branch leaf level i) x)
    (hposition : position < 2 ^ siblings.length)
    (h : climb branch x position siblings = node branch leaf level i) :
    siblings.length = level ∧ x = leaf (i * 2 ^ level + position) := by
  induction level generalizing siblings position i with
  | zero =>
    rcases List.eq_nil_or_concat siblings with rfl | ⟨below, top, rfl⟩
    · have hzero : position = 0 := by simpa using hposition
      exact ⟨rfl, by simpa [hzero, climb, node] using h⟩
    · rw [List.concat_eq_append, (climb_concat ..).1] at h
      refine absurd h.symm (hleaf i _ ?_)
      rw [List.concat_eq_append, (climb_concat ..).2]
      exact List.mem_append_right _ List.mem_cons_self
  | succ level ih =>
    rcases List.eq_nil_or_concat siblings with rfl | ⟨below, top, rfl⟩
    · exact absurd h (hx _ List.mem_cons_self)
    rw [List.concat_eq_append, (climb_concat ..).2] at hapart hleaf
    rw [List.concat_eq_append, (climb_concat ..).1, node] at h
    rw [List.length_concat, Nat.pow_succ] at hposition
    rw [List.length_concat]
    have htop := hapart _ (List.mem_append_right _ List.mem_cons_self) _
      List.mem_cons_self h
    have hpairs : ∀ j, j = 2 * i ∨ j = 2 * i + 1 →
        pairs branch leaf level j ⊆ pairs branch leaf (level + 1) i := by
      intro j hj p hp
      rcases hj with rfl | rfl
      · exact List.mem_cons_of_mem _ (List.mem_append_left _ hp)
      · exact List.mem_cons_of_mem _ (List.mem_append_right _ hp)
    have hless : ∀ j, Outside branch (climbed branch x position below)
        (leaf j) := fun j p hp => hleaf j p (List.mem_append_left _ hp)
    by_cases hlow : position < 2 ^ below.length
    · rw [Nat.div_eq_of_lt hlow] at htop
      obtain ⟨hlength, hfound⟩ := ih
        (fun p hp q hq => hapart p (List.mem_append_left _ hp) q
          (hpairs _ (.inl rfl) hq)) hless
        (fun q hq => hx q (hpairs _ (.inl rfl) hq)) hlow
        (congrArg Prod.fst htop)
      refine ⟨congrArg (· + 1) hlength, hfound.trans (congrArg leaf ?_)⟩
      rw [Nat.pow_succ]
      ring
    · obtain ⟨rest, rfl⟩ := Nat.exists_eq_add_of_le'
        (Nat.le_of_not_lt hlow)
      have hone : (rest + 2 ^ below.length) / 2 ^ below.length = 1 :=
        Nat.div_eq_of_lt_le (by omega) (by omega)
      rw [hone, (climb_add_pow x rest below).1] at htop
      rw [(climb_add_pow x rest below).2] at hless hapart
      obtain ⟨hlength, hfound⟩ := ih
        (fun p hp q hq => hapart p (List.mem_append_left _ hp) q
          (hpairs _ (.inr rfl) hq)) hless
        (fun q hq => hx q (hpairs _ (.inr rfl) hq)) (by omega)
        (congrArg Prod.snd htop)
      refine ⟨congrArg (· + 1) hlength, hfound.trans (congrArg leaf ?_)⟩
      rw [Nat.pow_succ, hlength]
      ring

/-- Equal nodes stand on equal leaves. -/
theorem leaves_eq_of_node_eq {leaf' : Nat → α} {d d' i i' : Nat}
    (hapart : Apart branch (pairs branch leaf d i) (pairs branch leaf' d' i'))
    (hleaf : ∀ j, Outside branch (pairs branch leaf' d' i') (leaf j))
    (hleaf' : ∀ j, Outside branch (pairs branch leaf d i) (leaf' j))
    (h : node branch leaf d i = node branch leaf' d' i') :
    d = d' ∧ ∀ j < 2 ^ d, leaf (i * 2 ^ d + j) = leaf' (i' * 2 ^ d + j) := by
  induction d generalizing d' i i' with
  | zero =>
    cases d' with
    | zero =>
      refine ⟨rfl, fun j hj => ?_⟩
      obtain rfl : j = 0 := by simpa using hj
      simpa [node] using h
    | succ d' => exact absurd h (hleaf i _ List.mem_cons_self)
  | succ d ih =>
    cases d' with
    | zero => exact absurd h.symm (hleaf' i' _ List.mem_cons_self)
    | succ d' =>
      have htop := hapart _ List.mem_cons_self _ List.mem_cons_self h
      obtain ⟨hd, hleft⟩ := ih
        (fun p hp q hq => hapart p
          (List.mem_cons_of_mem _ (List.mem_append_left _ hp)) q
          (List.mem_cons_of_mem _ (List.mem_append_left _ hq)))
        (fun j q hq => hleaf j q
          (List.mem_cons_of_mem _ (List.mem_append_left _ hq)))
        (fun j q hq => hleaf' j q
          (List.mem_cons_of_mem _ (List.mem_append_left _ hq)))
        (congrArg Prod.fst htop)
      obtain ⟨_, hright⟩ := ih
        (fun p hp q hq => hapart p
          (List.mem_cons_of_mem _ (List.mem_append_right _ hp)) q
          (List.mem_cons_of_mem _ (List.mem_append_right _ hq)))
        (fun j q hq => hleaf j q
          (List.mem_cons_of_mem _ (List.mem_append_right _ hq)))
        (fun j q hq => hleaf' j q
          (List.mem_cons_of_mem _ (List.mem_append_right _ hq)))
        (congrArg Prod.snd htop)
      refine ⟨congrArg (· + 1) hd, fun j hj => ?_⟩
      rw [Nat.pow_succ] at hj ⊢
      by_cases hlow : j < 2 ^ d
      · have hfound := hleft j hlow
        rwa [show 2 * i * 2 ^ d = i * (2 ^ d * 2) by ring,
          show 2 * i' * 2 ^ d = i' * (2 ^ d * 2) by ring] at hfound
      · obtain ⟨rest, rfl⟩ := Nat.exists_eq_add_of_le'
          (Nat.le_of_not_lt hlow)
        have hfound := hright rest (by omega)
        rwa [show (2 * i + 1) * 2 ^ d + rest =
            i * (2 ^ d * 2) + (rest + 2 ^ d) by ring,
          show (2 * i' + 1) * 2 ^ d + rest =
            i' * (2 ^ d * 2) + (rest + 2 ^ d) by ring] at hfound

end ZephyrChain.Lib.MerkleTree
