/-
Sparse Merkle trees over fixed-length bit keys, as mathematics: the
digest of a partial map, what a local change does to it, and what an
authentication path proves about it.

# The reference digest

`node A m h p` is the digest of the part of the map `m` under the
prefix `p`, for a subtree of height `h`. It is defined from the map
alone: `A .empty` or `A (.leaf k v)` at height 0, `A (.branch l r)`
above. The hash is one function `A` out of the tagged union
`Preimage`, so "injective with disjoint images" is injectivity of `A`.

# Views and rehashing

An implementation keeps digests in some store. What the proofs need of
the store is its *view*: the digest it reports at a depth and prefix.
`rehash` rewrites a view along one key's path, bottom up, reading the
sibling of each node from the view as it stands; `shows_rehash` says
that this turns a view of `m` into a view of the updated map. A tree
that prunes default nodes and an overlay that does not have the same
view, so one lemma serves both.

# Paths

`claim` is the verifier's chain of preimages from a leaf and an
arbitrary row of siblings. `claim_sound` compares it with the tree from
the top down: if the hash has no collision among the preimages the two
sides visit, the leaf is the tree's own. `map_eq_of_node_eq` is the same
argument over the whole tree: the root pins the map.
-/
import Mathlib.Data.Set.Function
import Mathlib.Logic.Function.Basic
import Mathlib.Tactic

namespace ZephyrChain.Lib.SparseMerkle

/-- Keys that are bit strings of length `D`: bit `i` counts from the
root, `mask k d` keeps the first `d` bits, `flip k i` toggles bit `i`. -/
class BitKey (K : Type) (D : outParam Nat) where
  bit : K → Nat → Bool
  mask : K → Nat → K
  flip : K → Nat → K
  zero : K
  bit_mask : ∀ k d i, i < D → bit (mask k d) i = (decide (i < d) && bit k i)
  bit_flip : ∀ k j i, i < D → j < D →
    bit (flip k j) i = (bit k i ^^ decide (i = j))
  bit_zero : ∀ i, i < D → bit zero i = false
  ext : ∀ k k', (∀ i, i < D → bit k i = bit k' i) → k = k'

/-- What a node digest is taken of. -/
inductive Preimage (K V H : Type) where
  | empty
  | leaf (key : K) (value : V)
  | branch (left right : H)
  deriving DecidableEq

open BitKey

variable {K V H : Type} {D : Nat} [BitKey K D]

-- ==== key algebra

variable {d : Nat}

theorem bit_mask_lt (k : K) {i : Nat} (hi : i < D) (hd : i < d) :
    bit (mask k d) i = bit k i := by
  simp [bit_mask k d i hi, hd]

theorem bit_mask_ge (k : K) {i : Nat} (hi : i < D) (hd : d ≤ i) :
    bit (mask k d) i = false := by
  simp [bit_mask k d i hi, hd]

theorem mask_full (k : K) (hd : D ≤ d) : mask k d = k :=
  ext _ _ fun i hi => bit_mask_lt k hi (by omega)

@[simp] theorem mask_zero (k : K) : mask k 0 = (zero : K) :=
  ext _ _ fun i hi => by
    rw [bit_mask_ge k hi (Nat.zero_le i), bit_zero i hi]

/-- Masking twice keeps the shorter prefix. -/
theorem mask_mask (k : K) (d e : Nat) :
    mask (mask k d) e = mask k (min d e) := by
  apply ext
  intro i hi
  simp only [bit_mask _ _ i hi]
  by_cases hd : i < d <;> by_cases he : i < e <;> simp [hd, he]

/-- A prefix of length `d + 1` is the prefix of length `d` with bit `d`
restored. -/
theorem mask_succ (k : K) (hd : d < D) :
    mask k (d + 1) = if bit k d then flip (mask k d) d else mask k d := by
  apply ext
  intro i hi
  split
  case isTrue hb =>
    rw [bit_flip _ d i hi hd, bit_mask _ _ i hi, bit_mask _ _ i hi]
    by_cases hid : i = d
    · subst hid
      simp [hb]
    · have : i < d + 1 ↔ i < d := by omega
      simp [hid, this]
  case isFalse hb =>
    rw [bit_mask _ _ i hi, bit_mask _ _ i hi]
    by_cases hid : i = d
    · subst hid
      simp [Bool.eq_false_iff.2 hb]
    · have : i < d + 1 ↔ i < d := by omega
      simp [this]

theorem flip_flip (k : K) (hd : d < D) : flip (flip k d) d = k := by
  apply ext
  intro i hi
  rw [bit_flip _ d i hi hd, bit_flip _ d i hi hd]
  simp

theorem mask_flip (k : K) {e : Nat} (hd : d < D) (he : d < e) :
    mask (flip k d) e = flip (mask k e) d := by
  apply ext
  intro i hi
  rw [bit_mask _ _ i hi, bit_flip _ d i hi hd, bit_flip _ d i hi hd,
    bit_mask _ _ i hi]
  by_cases hid : i = d
  · subst hid
    simp [he]
  · simp [hid]

/-- Flipping a bit behind the prefix does not change the prefix. -/
theorem mask_flip_le (k : K) {e : Nat} (hd : d < D) (he : e ≤ d) :
    mask (flip k d) e = mask k e := by
  apply ext
  intro i hi
  rw [bit_mask _ _ i hi, bit_mask _ _ i hi, bit_flip _ d i hi hd]
  by_cases hie : i < e
  · have : i ≠ d := by omega
    simp [this]
  · simp [hie]

-- ==== the reference tree

/-- The preimage of a parent, from the node on a key's path and the
node beside it: the key's bit says which side the path takes. -/
def combine (b : Bool) (child sibling : H) : Preimage K V H :=
  if b then .branch sibling child else .branch child sibling

theorem combine_inj {b : Bool} {c c' s s' : H}
    (h : (combine b c s : Preimage K V H) = combine b c' s') :
    c = c' ∧ s = s' := by
  cases b
  case false => simpa [combine] using h
  case true => simpa [combine, and_comm] using h

variable (A : Preimage K V H → H)

/-- The preimage at height 0: what the map stores under the key. -/
def leafPre (m : K → Option V) (k : K) : Preimage K V H :=
  match m k with
  | none => .empty
  | some v => .leaf k v

/-- The digest of the map `m` below the prefix `p`, in a subtree of
height `h`. The left half keeps the (zero-padded) prefix, the right half
sets the bit at depth `D - (h + 1)`. -/
def node (m : K → Option V) : Nat → K → H
  | 0, p => A (leafPre m p)
  | h + 1, p => A (.branch (node m h p) (node m h (flip p (D - (h + 1)))))

/-- The preimage whose digest `node` is. -/
def nodePre (m : K → Option V) : Nat → K → Preimage K V H
  | 0, p => leafPre m p
  | h + 1, p => .branch (node A m h p) (node A m h (flip p (D - (h + 1))))

/-- The digest of the whole map. -/
def root (m : K → Option V) : H := node A m D zero

/-- The digest of an empty subtree of height `h`. -/
def defaultNode : Nat → H
  | 0 => A .empty
  | h + 1 => A (.branch (defaultNode h) (defaultNode h))

theorem node_eq_nodePre (m : K → Option V) (h : Nat) (p : K) :
    node A m h p = A (nodePre A m h p) := by
  cases h <;> rfl

theorem node_none (h : Nat) (p : K) :
    node A (fun _ => none) h p = defaultNode A h := by
  induction h generalizing p with
  | zero => rfl
  | succ h ih => rw [node, ih, ih, defaultNode]

/-- The digest under a prefix depends only on the keys under it. -/
theorem node_congr {m m' : K → Option V} {h : Nat} {p : K} (hh : h ≤ D)
    (hp : mask p (D - h) = p)
    (hm : ∀ k, mask k (D - h) = p → m k = m' k) :
    node A m h p = node A m' h p := by
  induction h generalizing p with
  | zero =>
    have hmp : m p = m' p := hm p (mask_full p (by omega))
    rw [node, node, leafPre, leafPre, hmp]
  | succ h ih =>
    have hd : D - (h + 1) < D := by omega
    -- a key under either half is under `p`
    have hup : ∀ k, mask (mask k (D - h)) (D - (h + 1)) = p →
        m k = m' k := by
      intro k hk
      refine hm k ?_
      rwa [mask_mask, Nat.min_eq_right (by omega)] at hk
    have hleft : mask p (D - h) = p := by
      rw [← hp, mask_mask, Nat.min_eq_left (by omega)]
    rw [node, node, ih (by omega) hleft, ih (by omega)]
    · rw [mask_flip p hd (by omega), hleft]
    · intro k hk
      refine hup k ?_
      rw [hk, mask_flip_le p hd le_rfl, hp]
    · intro k hk
      exact hup k (by rw [hk, hp])

/-- The preimage of a node on a key's path, from its two children. -/
theorem nodePre_path (m : K → Option V) (key : K) (hd : d < D) :
    nodePre A m (D - d) (mask key d) =
      combine (bit key d)
        (node A m (D - (d + 1)) (mask key (d + 1)))
        (node A m (D - (d + 1)) (flip (mask key (d + 1)) d)) := by
  have hh : D - d = D - (d + 1) + 1 := by omega
  have hdepth : D - (D - (d + 1) + 1) = d := by omega
  rw [hh, nodePre, hdepth, mask_succ key hd]
  cases bit key d
  case false => simp [combine]
  case true => simp [combine, flip_flip (mask key d) hd]

theorem node_path (m : K → Option V) (key : K) (hd : d < D) :
    node A m (D - d) (mask key d) =
      A (combine (bit key d)
        (node A m (D - (d + 1)) (mask key (d + 1)))
        (node A m (D - (d + 1)) (flip (mask key (d + 1)) d))) := by
  rw [node_eq_nodePre, nodePre_path A m key hd]

-- ==== views and rehashing

/-- The digests a store reports, by depth and prefix. -/
abbrev View (K H : Type) := Nat → K → H

/-- The view reports the reference digests of `m`. -/
def Shows (m : K → Option V) (L : View K H) : Prop :=
  ∀ d, d ≤ D → ∀ p, mask p d = p → L d p = node A m (D - d) p

/-- The view reports `m'` from depth `d` downwards and `m` above. -/
def ShowsFrom (d : Nat) (m m' : K → Option V) (L : View K H) : Prop :=
  ∀ e, e ≤ D → ∀ p, mask p e = p →
    L e p = node A (if d ≤ e then m' else m) (D - e) p

/-- Replace one reported digest. -/
def View.set [DecidableEq K] (L : View K H) (d : Nat) (p : K) (x : H) :
    View K H :=
  fun e q => if e = d ∧ q = p then x else L e q

/-- The digest that belongs at depth `d` of a key's path, computed from
the view one level below. -/
def parentOf (L : View K H) (key : K) (d : Nat) : H :=
  A (combine (bit key d) (L (d + 1) (mask key (d + 1)))
    (L (d + 1) (flip (mask key (d + 1)) d)))

section Rehash

variable [DecidableEq K]

/-- Recompute a key's path from depth `d - 1` up to the root. -/
def rehash (key : K) : Nat → View K H → View K H
  | 0, L => L
  | d + 1, L =>
    rehash key d (L.set d (mask key d) (parentOf A L key d))

variable {A} {m : K → Option V} {L : View K H}

/-- A new leaf digest makes the view right at the bottom. -/
theorem ShowsFrom.leaf (hL : Shows A m L) (key : K) (v : Option V) :
    ShowsFrom A D m (Function.update m key v)
      (L.set D key (A (leafPre (Function.update m key v) key))) := by
  intro e he p hp
  unfold View.set
  split
  case isTrue hkey =>
    obtain ⟨rfl, rfl⟩ := hkey
    simp [node]
  case isFalse hkey =>
    rw [hL e he p hp]
    by_cases hed : D ≤ e
    · obtain rfl : e = D := by omega
      have hpk : p ≠ key := fun h => hkey ⟨rfl, h⟩
      simp [node, leafPre, Function.update_of_ne hpk]
    · rw [if_neg hed]

/-- One level of the rehashing loop. -/
theorem ShowsFrom.step {key : K} {v : Option V} {d : Nat} (hd : d < D)
    (hL : ShowsFrom A (d + 1) m (Function.update m key v) L) :
    ShowsFrom A d m (Function.update m key v)
      (L.set d (mask key d) (parentOf A L key d)) := by
  intro e he p hp
  unfold View.set
  split
  case isTrue hkey =>
    obtain ⟨rfl, rfl⟩ := hkey
    have hflip : mask (flip (mask key (e + 1)) e) (e + 1) =
        flip (mask key (e + 1)) e := by
      rw [mask_flip _ hd (by omega), mask_mask, Nat.min_self]
    have hmask : mask (mask key (e + 1)) (e + 1) = mask key (e + 1) := by
      rw [mask_mask, Nat.min_self]
    rw [if_pos le_rfl, node_path A _ key hd, parentOf,
      hL (e + 1) hd _ hmask, hL (e + 1) hd _ hflip, if_pos le_rfl]
  case isFalse hkey =>
    rw [hL e he p hp]
    by_cases hed : e = d
    · -- beside the path: the key is not under `p`, so nothing changed
      subst hed
      have hpk : p ≠ mask key e := fun h => hkey ⟨rfl, h⟩
      have hde : D - (D - e) = e := by omega
      rw [if_neg (by omega), if_pos le_rfl]
      refine node_congr A (by omega) (by rwa [hde]) ?_
      intro k hk
      rw [hde] at hk
      have hne : k ≠ key := by
        rintro rfl
        exact hpk hk.symm
      rw [Function.update_of_ne hne]
    · have hiff : d + 1 ≤ e ↔ d ≤ e := by omega
      simp only [hiff]

theorem ShowsFrom.rehash {key : K} {v : Option V} {d : Nat} (hd : d ≤ D)
    (hL : ShowsFrom A d m (Function.update m key v) L) :
    Shows A (Function.update m key v) (SparseMerkle.rehash A key d L) := by
  induction d generalizing L with
  | zero =>
    intro e he p hp
    simpa [SparseMerkle.rehash] using hL e he p hp
  | succ d ih => exact ih (by omega) (hL.step (by omega))

/-- Writing a leaf and rehashing its path turns a view of `m` into a
view of `m` with that key updated. -/
theorem shows_rehash (hL : Shows A m L) (key : K) (v : Option V) :
    Shows A (Function.update m key v)
      (rehash A key D
        (L.set D key (A (leafPre (Function.update m key v) key)))) :=
  (ShowsFrom.leaf hL key v).rehash le_rfl

end Rehash

-- ==== authentication paths

/-- The preimages a verifier hashes: the claimed leaf preimage at height
0, then one branch per level with the supplied sibling. `sib d` is the
digest supplied beside the path at depth `d`. -/
def claim (key : K) (sib : Nat → H) (x : Preimage K V H) :
    Nat → Preimage K V H
  | 0 => x
  | h + 1 => combine (bit key (D - (h + 1))) (A (claim key sib x h))
      (sib (D - h))

/-- The preimages of one key's path in the tree of `m`. -/
def pathPre (m : K → Option V) (key : K) (h : Nat) : Preimage K V H :=
  nodePre A m h (mask key (D - h))

/-- The digests beside one key's path in the tree of `m`. -/
def pathSibling (m : K → Option V) (key : K) (d : Nat) : H :=
  node A m (D - d) (flip (mask key d) (d - 1))

variable {A}

theorem pathPre_zero (m : K → Option V) (key : K) :
    pathPre A m key 0 = leafPre m key := by
  rw [pathPre, mask_full key (by omega), nodePre]

theorem pathPre_succ (m : K → Option V) (key : K) {h : Nat} (hh : h < D) :
    pathPre A m key (h + 1) =
      combine (bit key (D - (h + 1))) (A (pathPre A m key h))
        (pathSibling A m key (D - h)) := by
  have h1 : D - (D - (h + 1)) = h + 1 := by omega
  have h2 : D - (h + 1) + 1 = D - h := by omega
  have h3 : D - (D - h) = h := by omega
  have hd : D - h - 1 = D - (h + 1) := by omega
  have hp := nodePre_path A m key (d := D - (h + 1)) (by omega)
  rw [h1, h2, h3, node_eq_nodePre A m h (mask key _)] at hp
  rw [pathPre, hp, pathPre, pathSibling, h3, hd]

/-- Every key's path ends in the root. -/
theorem root_eq_pathPre (m : K → Option V) (key : K) :
    root A m = A (pathPre A m key D) := by
  rw [root, node_eq_nodePre, pathPre, Nat.sub_self, mask_zero]

/-- Soundness: a chain that ends in the tree's root, with any siblings
whatsoever, is the tree's path, provided the hash has no collision among
the preimages of the two. Peeled from the top: equal parents have equal
children. -/
theorem claim_sound {m : K → Option V} {key : K} (sib : Nat → H)
    {x : Preimage K V H} {S : Set (Preimage K V H)} (hinj : Set.InjOn A S)
    (hclaim : ∀ h, h ≤ D → claim A key sib x h ∈ S)
    (hpath : ∀ h, h ≤ D → pathPre A m key h ∈ S)
    (hroot : A (claim A key sib x D) = root A m) :
    x = leafPre m key := by
  have hdown : ∀ i, i ≤ D →
      claim A key sib x (D - i) = pathPre A m key (D - i) := by
    intro i
    induction i with
    | zero =>
      intro _
      refine hinj (hclaim D le_rfl) (hpath D le_rfl) ?_
      rw [Nat.sub_zero, hroot, root_eq_pathPre m key]
    | succ i ih =>
      intro hi
      have hh : D - i = D - (i + 1) + 1 := by omega
      have heq := ih (by omega)
      rw [hh, claim, pathPre_succ m key (by omega)] at heq
      exact hinj (hclaim _ (by omega)) (hpath _ (by omega))
        (combine_inj heq).1
  have h0 := hdown D le_rfl
  rw [Nat.sub_self, pathPre_zero] at h0
  exact h0

theorem leafPre_inj {m m' : K → Option V} {k : K}
    (h : (leafPre m k : Preimage K V H) = leafPre m' k) : m k = m' k := by
  unfold leafPre at h
  cases hm : m k <;> cases hm' : m' k <;> simp_all

end ZephyrChain.Lib.SparseMerkle
