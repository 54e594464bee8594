/-
The trees of `Merkle` are hash trees in the sense of `Lib.MerkleTree`:
the leaves of the list, with empty leaves behind them, under as many
levels as it takes to hold the list.

# The buffer

One pass over the level buffer writes parent `j` into entry `j` after the
entries `2 * j` and `2 * j + 1` have been read. `Holds` says which entries
of the buffer are the nodes of the current level; stale entries behind
them are never read again.

# The counter

A proof carries the number of leaves in 32 bits. A list of 2^32 leaves or
more has a proof with the wrong count, and `verify` refuses every one of
them (`merkle_correct_iff`).
-/
import ZephyrChain.Merkle
import ZephyrChain.Lib.MerkleTree
import Mathlib.Data.Nat.Log

namespace ZephyrChain.Merkle

open Lib
open Lib.MerkleTree (node path Apart Outside)

variable {C : Crypto} {leaves : List Hash}

/-- The leaf at a position; all those behind the list are empty. -/
def leafAt (C : Crypto) (leaves : List Hash) (i : Nat) : Hash :=
  leaves.getD i (emptyLeaf C)

/-- The levels above `n` leaves. -/
def depth (n : Nat) : Nat := Nat.clog 2 n

/-- The root, level by level from the top. -/
def treeRoot (C : Crypto) (leaves : List Hash) : Hash :=
  node (branch C) (leafAt C leaves) (depth leaves.length) 0

-- ==== shape

theorem doubleUntil_eq {n fuel k : Nat} (hk : k ≤ depth n)
    (hfuel : depth n ≤ k + fuel) :
    doubleUntil n fuel (2 ^ k) = 2 ^ depth n := by
  induction fuel generalizing k with
  | zero => rw [doubleUntil, Nat.le_antisymm hk hfuel]
  | succ fuel ih =>
    rw [doubleUntil]
    by_cases hlt : 2 ^ k < n
    · have hmore : k < depth n := (Nat.lt_clog_iff_pow_lt (by decide)).2 hlt
      rw [if_pos hlt, ← Nat.pow_succ, ih hmore (by omega)]
    · have hdone : depth n ≤ k :=
        (Nat.clog_le_iff_le_pow (by decide)).2 (Nat.le_of_not_lt hlt)
      rw [if_neg hlt, Nat.le_antisymm hk hdone]

theorem nextPowerOfTwo_eq (n : Nat) : nextPowerOfTwo n = 2 ^ depth n := by
  rw [nextPowerOfTwo]
  split
  case isTrue hone =>
    rw [depth, Nat.clog_of_right_le_one hone, Nat.pow_zero]
  case isFalse =>
    refine doubleUntil_eq (Nat.zero_le _) ((Nat.zero_add n).symm ▸ ?_)
    exact (Nat.clog_le_iff_le_pow (by decide)).2 Nat.lt_two_pow_self.le

theorem halvings_eq {fuel k : Nat} (h : k ≤ fuel) :
    halvings fuel (2 ^ k) = k := by
  induction fuel generalizing k with
  | zero => rw [Nat.le_zero.1 h, halvings]
  | succ fuel ih =>
    cases k with
    | zero => rfl
    | succ k =>
      have hlt : 1 < 2 ^ (k + 1) := Nat.one_lt_two_pow (Nat.succ_ne_zero k)
      rw [halvings, if_pos hlt, Nat.pow_succ,
        Nat.mul_div_cancel _ (by decide), ih (Nat.le_of_succ_le_succ h)]

theorem le_two_pow_depth (n : Nat) : n ≤ 2 ^ depth n :=
  (Nat.clog_le_iff_le_pow (by decide)).1 Nat.le.refl

-- ==== the buffer

/-- The first entries of the buffer are the nodes of a level. -/
structure Holds (C : Crypto) (leaves : List Hash) (level width : Nat)
    (buffer : List Hash) : Prop where
  length : width ≤ buffer.length
  entries : ∀ i < width,
    entry buffer i = node (branch C) (leafAt C leaves) level i

theorem holds_padded :
    Holds C leaves 0 (2 ^ depth leaves.length) (padded C leaves) := by
  have hle := le_two_pow_depth leaves.length
  have hlength : (padded C leaves).length = 2 ^ depth leaves.length := by
    rw [padded, List.length_append, List.length_replicate, nextPowerOfTwo_eq]
    omega
  refine ⟨hlength.ge, fun i hi => ?_⟩
  rw [← hlength] at hi
  simp only [entry, node, leafAt, padded, List.getD_eq_getElem?_getD]
  rw [padded] at hi
  by_cases hin : i < leaves.length
  · rw [List.getElem?_append_left hin, List.getElem?_eq_getElem hin]
    rfl
  · rw [List.getElem?_append_right (Nat.le_of_not_lt hin),
      List.getElem?_eq_none (Nat.le_of_not_lt hin), List.getElem?_replicate]
    rw [List.length_append, List.length_replicate] at hi
    rw [if_pos (by omega)]
    rfl

variable {buffer : List Hash}

theorem entry_set {i j : Nat} {x : Hash} (hj : j < buffer.length) :
    entry (buffer.set j x) i = if i = j then x else entry buffer i := by
  simp only [entry, List.getD_eq_getElem?_getD]
  by_cases hij : i = j
  · rw [if_pos hij, hij, List.getElem?_set_self hj]
    rfl
  · rw [if_neg hij, List.getElem?_set_ne (Ne.symm hij)]

/-- One pass: the nodes of the next level, in half as many entries. -/
theorem holds_reduceLevel {level width : Nat}
    (h : Holds C leaves level (2 * width) buffer) :
    Holds C leaves (level + 1) width (reduceLevel C (2 * width) buffer) := by
  have hlength := h.length
  -- after `n` steps: parents in front, the old level behind them
  have hsteps : ∀ n ≤ width, ∀ after, after = (List.range n).foldl
      (fun buffer j => buffer.set j (branch C (entry buffer (2 * j))
        (entry buffer (2 * j + 1)))) buffer →
      after.length = buffer.length ∧
        (∀ i < n, entry after i =
          node (branch C) (leafAt C leaves) (level + 1) i) ∧
        ∀ i, n ≤ i → i < 2 * width → entry after i =
          node (branch C) (leafAt C leaves) level i := by
    intro n hn
    induction n with
    | zero =>
      rintro _ rfl
      exact ⟨rfl, fun i hi => absurd hi (Nat.not_lt_zero i),
        fun i _ hi => h.entries i hi⟩
    | succ n ih =>
      rintro _ rfl
      obtain ⟨hlen, hfront, hbehind⟩ := ih (by omega) _ rfl
      rw [List.range_succ, List.foldl_append, List.foldl_cons, List.foldl_nil]
      generalize (List.range n).foldl _ buffer = before at hlen hfront hbehind
      have hset : n < before.length := by omega
      refine ⟨by rw [List.length_set, hlen], fun i hi => ?_,
        fun i hi hlt => ?_⟩
      · rw [entry_set hset]
        by_cases hlast : i = n
        · rw [if_pos hlast, hbehind _ (by omega) (by omega),
            hbehind _ (by omega) (by omega), hlast, node]
        · rw [if_neg hlast]
          exact hfront i (by omega)
      · rw [entry_set hset, if_neg (by omega)]
        exact hbehind i (by omega) hlt
  have hhalf : (2 * width + 1) / 2 = width := by omega
  obtain ⟨hlen, hfront, _⟩ := hsteps width Nat.le.refl _ rfl
  refine ⟨?_, ?_⟩
  · rw [reduceLevel, hhalf, hlen]
    omega
  · rw [reduceLevel, hhalf]
    exact hfront

theorem reduceAll_eq {fuel k level : Nat} (hfuel : k ≤ fuel)
    (h : Holds C leaves level (2 ^ k) buffer) :
    entry (reduceAll C fuel (2 ^ k) buffer) 0 =
      node (branch C) (leafAt C leaves) (level + k) 0 := by
  induction fuel generalizing k level buffer with
  | zero =>
    obtain rfl := Nat.le_zero.1 hfuel
    exact h.entries 0 Nat.one_pos
  | succ fuel ih =>
    cases k with
    | zero => exact h.entries 0 Nat.one_pos
    | succ k =>
      have hlt : 1 < 2 ^ (k + 1) := Nat.one_lt_two_pow (Nat.succ_ne_zero k)
      rw [Nat.pow_succ'] at h hlt ⊢
      rw [reduceAll, if_pos hlt, Nat.mul_div_cancel_left _ (by decide),
        ih (Nat.le_of_succ_le_succ hfuel) (holds_reduceLevel h),
        Nat.add_right_comm]
      rfl

theorem siblingsFrom_eq {fuel k level position : Nat} (hfuel : k ≤ fuel)
    (hposition : position < 2 ^ k)
    (h : Holds C leaves level (2 ^ k) buffer) :
    siblingsFrom C fuel (2 ^ k) position buffer =
      path (branch C) (leafAt C leaves) level k position := by
  induction fuel generalizing k level position buffer with
  | zero =>
    obtain rfl := Nat.le_zero.1 hfuel
    rfl
  | succ fuel ih =>
    cases k with
    | zero => rfl
    | succ k =>
      have hlt : 1 < 2 ^ (k + 1) := Nat.one_lt_two_pow (Nat.succ_ne_zero k)
      have hsibling : position ^^^ 1 < 2 ^ (k + 1) :=
        Nat.xor_lt_two_pow hposition hlt
      rw [Nat.pow_succ'] at h hlt hposition hsibling ⊢
      rw [siblingsFrom, if_pos hlt, Nat.mul_div_cancel_left _ (by decide),
        h.entries _ hsibling, path, ih (Nat.le_of_succ_le_succ hfuel)
          (by omega) (holds_reduceLevel h)]

theorem root_eq_treeRoot : root C leaves = treeRoot C leaves := by
  rw [root]
  split
  case isTrue hnil =>
    rw [hnil]
    rfl
  case isFalse =>
    simp only [nextPowerOfTwo_eq]
    rw [reduceAll_eq Nat.lt_two_pow_self.le holds_padded, Nat.zero_add]
    rfl

-- ==== proofs

theorem climb_eq (current : Hash) (position : Nat) (siblings : List Hash) :
    climb C current position siblings =
      MerkleTree.climb (branch C) current position siblings := by
  induction siblings generalizing current position with
  | nil => rfl
  | cons sibling siblings ih => rw [climb, MerkleTree.climb, ih]

theorem verify_iff {root leaf : Hash} {p : Proof} :
    verify C root leaf p = true ↔ p.leafCount ≠ 0 ∧ p.index < p.leafCount ∧
      p.siblings.length = depth p.leafCount.toNat ∧
      MerkleTree.climb (branch C) leaf p.index.toNat p.siblings = root := by
  have hdepth : halvings (2 ^ depth p.leafCount.toNat)
      (2 ^ depth p.leafCount.toNat) = depth p.leafCount.toNat :=
    halvings_eq Nat.lt_two_pow_self.le
  rw [verify]
  split
  case isTrue hshape =>
    constructor
    · intro h
      cases h
    · rintro ⟨hcount, hindex, _⟩
      rcases hshape with hzero | hle
      · exact absurd hzero hcount
      · exact absurd hindex (UInt32.not_lt.2 hle)
  case isFalse hshape =>
    obtain ⟨hcount, hindex⟩ := not_or.1 hshape
    simp only [nextPowerOfTwo_eq, hdepth, climb_eq]
    by_cases hlength : p.siblings.length = depth p.leafCount.toNat
    · simp [hcount, UInt32.not_le.1 hindex, hlength]
    · simp [hlength]

/-- The proof of an index, with both numbers cut to 32 bits. -/
theorem buildProof_eq {index : Nat} (h : index < leaves.length) :
    buildProof C leaves index = some ⟨UInt32.ofNat index,
      UInt32.ofNat leaves.length, path (branch C) (leafAt C leaves) 0
        (depth leaves.length) index⟩ := by
  have hindex := h.trans_le (le_two_pow_depth leaves.length)
  rw [buildProof, if_pos h]
  simp only [nextPowerOfTwo_eq]
  rw [siblingsFrom_eq Nat.lt_two_pow_self.le hindex holds_padded]

/-- The proof built for an index verifies if the count fits, and not
otherwise: the siblings are too many for any count of 32 bits. -/
theorem verify_buildProof {index : Nat} (h : index < leaves.length) :
    verify C (root C leaves) (leafAt C leaves index) ⟨UInt32.ofNat index,
        UInt32.ofNat leaves.length, path (branch C) (leafAt C leaves) 0
          (depth leaves.length) index⟩ = true ↔
      leaves.length < 2 ^ 32 := by
  rw [verify_iff, MerkleTree.length_path]
  show UInt32.ofNat leaves.length ≠ 0 ∧
    UInt32.ofNat index < UInt32.ofNat leaves.length ∧
    depth leaves.length = depth (UInt32.ofNat leaves.length).toNat ∧ _ ↔ _
  constructor
  · rintro ⟨hcount, _, hdepth, _⟩
    have hsmall := (UInt32.ofNat leaves.length).toNat_lt
    by_contra hlarge
    rcases Nat.lt_or_ge (2 ^ 32) leaves.length with hlt | hge
    · have hdeep : 32 < depth leaves.length :=
        (Nat.lt_clog_iff_pow_lt (by decide)).2 hlt
      have hshallow : depth (UInt32.ofNat leaves.length).toNat ≤ 32 :=
        (Nat.clog_le_iff_le_pow (by decide)).2 hsmall.le
      omega
    · apply hcount
      rw [show leaves.length = 2 ^ 32 by omega]
      rfl
  · intro hsmall
    have hcount : (UInt32.ofNat leaves.length).toNat = leaves.length := by
      rw [UInt32.toNat_ofNat', Nat.mod_eq_of_lt hsmall]
    have hindex : (UInt32.ofNat index).toNat = index := by
      rw [UInt32.toNat_ofNat', Nat.mod_eq_of_lt (h.trans hsmall)]
    refine ⟨fun hzero => ?_, ?_, by rw [hcount], ?_⟩
    · have hnone : leaves.length = 0 := by
        rw [← hcount, hzero]
        rfl
      omega
    · rw [UInt32.lt_iff_toNat_lt, hcount, hindex]
      exact h
    · have hposition := h.trans_le (le_two_pow_depth leaves.length)
      have hroot := @MerkleTree.climb_path _ (branch C) (leafAt C leaves) 0
        (depth leaves.length) index
      rw [Nat.zero_add, Nat.div_eq_of_lt hposition] at hroot
      rw [hindex, root_eq_treeRoot]
      exact hroot

/-- The pairs of hashes below the root. -/
def treePairs (C : Crypto) (leaves : List Hash) : List (Hash × Hash) :=
  MerkleTree.pairs (branch C) (leafAt C leaves) (depth leaves.length) 0

/-- The pairs of hashes on the way up from a leaf. -/
def proofPairs (C : Crypto) (leaf : Hash) (p : Proof) : List (Hash × Hash) :=
  MerkleTree.climbed (branch C) leaf p.index.toNat p.siblings

/-- What one verification asks of the branch hash: it tells apart the
pairs it combines for the proof and for the tree, and no leaf, listed,
empty or given, is one of its values there. -/
structure Separates (C : Crypto) (leaves : List Hash) (leaf : Hash)
    (p : Proof) : Prop where
  apart : Apart (branch C) (proofPairs C leaf p) (treePairs C leaves)
  listed : ∀ l ∈ emptyLeaf C :: leaves,
    Outside (branch C) (proofPairs C leaf p) l
  given : Outside (branch C) (treePairs C leaves) leaf

theorem leafAt_mem (i : Nat) : leafAt C leaves i ∈ emptyLeaf C :: leaves := by
  rw [leafAt, List.getD_eq_getElem?_getD]
  cases hget : leaves[i]? with
  | none => exact List.mem_cons_self
  | some l => exact List.mem_cons_of_mem _ (List.mem_of_getElem? hget)

/-- Whatever a proof says, it verifies only the leaf at its index. -/
theorem sound_verify {leaf : Hash} {p : Proof}
    (hsep : Separates C leaves leaf p)
    (h : verify C (root C leaves) leaf p = true) :
    p.siblings.length = depth leaves.length ∧
      leaf = leafAt C leaves p.index.toNat := by
  obtain ⟨_, hindex, hdepth, hclimb⟩ := verify_iff.1 h
  have hposition : p.index.toNat < 2 ^ p.siblings.length := by
    rw [hdepth]
    exact (UInt32.lt_iff_toNat_lt.1 hindex).trans_le (le_two_pow_depth _)
  rw [root_eq_treeRoot, treeRoot] at hclimb
  obtain ⟨hlength, hfound⟩ := MerkleTree.eq_leaf_of_climb hsep.apart
    (fun j => hsep.listed _ (leafAt_mem j)) hsep.given hposition hclimb
  rw [Nat.zero_mul, Nat.zero_add] at hfound
  exact ⟨hlength, hfound⟩

/-- A tree that is correct and whose proofs are sound. -/
structure Correct (C : Crypto) (leaves : List Hash) : Prop where
  root_eq : root C leaves = treeRoot C leaves
  complete : ∀ (i : Nat) (h : i < leaves.length),
    ∃ p, buildProof C leaves i = some p ∧
      verify C (root C leaves) (leaves.get ⟨i, h⟩) p = true
  sound : ∀ leaf p, Separates C leaves leaf p →
    verify C (root C leaves) leaf p = true →
      p.siblings.length = depth leaves.length ∧
        leaf = leafAt C leaves p.index.toNat ∧
        (leaf ≠ emptyLeaf C → leaf ∈ leaves)

theorem leafAt_of_lt {i : Nat} (h : i < leaves.length) :
    leafAt C leaves i = leaves.get ⟨i, h⟩ := by
  rw [leafAt, List.getD_eq_getElem?_getD, List.getElem?_eq_getElem h]
  rfl

theorem mem_of_leafAt {i : Nat} (h : leafAt C leaves i ≠ emptyLeaf C) :
    leafAt C leaves i ∈ leaves :=
  (List.mem_cons.1 (leafAt_mem i)).resolve_left h

/-- For every list: the reduction in place gives the root of the tree, no
proof verifies anything but the leaf it names, and every leaf has a proof
that verifies, just when the list has fewer than 2^32 leaves. -/
theorem merkle_correct_iff (C : Crypto) (leaves : List Hash) :
    Correct C leaves ↔ leaves.length < 2 ^ 32 := by
  constructor
  · intro h
    by_contra hlarge
    have hfirst : 0 < leaves.length := by omega
    obtain ⟨p, hbuilt, hverifies⟩ := h.complete 0 hfirst
    rw [buildProof_eq hfirst] at hbuilt
    obtain rfl := Option.some.inj hbuilt
    rw [← leafAt_of_lt (C := C) hfirst] at hverifies
    exact hlarge ((verify_buildProof hfirst).1 hverifies)
  · intro hsmall
    refine ⟨root_eq_treeRoot, fun i hi => ⟨_, buildProof_eq hi, ?_⟩, ?_⟩
    · rw [← leafAt_of_lt (C := C) hi]
      exact (verify_buildProof hi).2 hsmall
    · intro leaf p hsep hverifies
      obtain ⟨hlength, hfound⟩ := sound_verify hsep hverifies
      exact ⟨hlength, hfound, fun hne => hfound ▸ mem_of_leafAt (hfound ▸ hne)⟩

/-- A hash that is always zero. -/
def blankCrypto : Crypto :=
  ⟨fun _ => Bytes32.zero, fun _ => true, fun _ _ _ _ => true⟩

/-- The proof of the first of 2^32 leaves counts no leaves at all and is
refused. -/
theorem crowdedTree_proof_rejected :
    ∃ p, buildProof blankCrypto (List.replicate (2 ^ 32) Bytes32.zero) 0 =
        some p ∧ p.leafCount = 0 ∧
      verify blankCrypto (root blankCrypto (List.replicate (2 ^ 32)
        Bytes32.zero)) Bytes32.zero p = false := by
  have hlength : (List.replicate (2 ^ 32) Bytes32.zero).length = 2 ^ 32 :=
    List.length_replicate
  generalize List.replicate (2 ^ 32) Bytes32.zero = leaves at hlength
  refine ⟨_, buildProof_eq (by omega), by rw [hlength]; rfl, ?_⟩
  rw [Bool.eq_false_iff, ne_eq, verify_iff, hlength]
  exact fun h => h.1 rfl

-- ==== binding

/-- The bytes hashed for the tree over the leaves of some payloads. -/
def frames (C : Crypto) (domain : String) (payloads : List Bytes) :
    Set Bytes :=
  {frame | (∃ p ∈ payloads,
      frame = domainFrame ("zephyr/merkle/leaf/v2/" ++ domain) p) ∨
    (∃ q ∈ treePairs C (payloads.map (leaf C domain)),
      frame = domainFrame "zephyr/merkle/branch/v2"
        (q.1.toList ++ q.2.toList)) ∨
    frame = domainFrame "zephyr/merkle/empty/v2" []}

/-- A leaf domain that is none of the other two domains. -/
structure Separate (domain : String) : Prop where
  short : (utf8 ("zephyr/merkle/leaf/v2/" ++ domain)).length < 2 ^ 32
  branch : utf8 ("zephyr/merkle/leaf/v2/" ++ domain) ≠
    utf8 "zephyr/merkle/branch/v2"
  empty : utf8 ("zephyr/merkle/leaf/v2/" ++ domain) ≠
    utf8 "zephyr/merkle/empty/v2"

section Binding

variable {domain : String} {xs ys : List Bytes}

/-- No listed or empty leaf of one tree is a branch of the other. -/
theorem outside_of_injOn (hdomain : Separate domain)
    (hinj : Set.InjOn C.sha256 (frames C domain xs ∪ frames C domain ys))
    (j : Nat) : Outside (branch C) (treePairs C (ys.map (leaf C domain)))
      (leafAt C (xs.map (leaf C domain)) j) := by
  intro q hq heq
  have hbranch : domainFrame "zephyr/merkle/branch/v2"
      (q.1.toList ++ q.2.toList) ∈ frames C domain xs ∪ frames C domain ys :=
    .inr (.inr (.inl ⟨q, hq, rfl⟩))
  have hlisted : leafAt C (xs.map (leaf C domain)) j ∈
      emptyLeaf C :: xs.map (leaf C domain) := leafAt_mem j
  rcases List.mem_cons.1 hlisted with hempty | hmem
  · rw [hempty] at heq
    have hframe := hinj (.inl (.inr (.inr rfl))) hbranch heq
    have hdiffers := (domainFrame_inj (by decide) (by decide) hframe).1
    exact absurd hdiffers (by decide)
  · obtain ⟨p, hp, hleaf⟩ := List.mem_map.1 hmem
    rw [← hleaf] at heq
    have hframe := hinj (.inl (.inl ⟨p, hp, rfl⟩)) hbranch heq
    exact hdomain.branch
      (domainFrame_inj hdomain.short (by decide) hframe).1

theorem apart_of_injOn
    (hinj : Set.InjOn C.sha256 (frames C domain xs ∪ frames C domain ys)) :
    Apart (branch C) (treePairs C (xs.map (leaf C domain)))
      (treePairs C (ys.map (leaf C domain))) := by
  intro p hp q hq heq
  have hframe := hinj (.inl (.inr (.inl ⟨p, hp, rfl⟩)))
    (.inr (.inr (.inl ⟨q, hq, rfl⟩))) heq
  have hlists := (domainFrame_inj (by decide) (by decide) hframe).2
  obtain ⟨hleft, hright⟩ := List.append_inj hlists (by simp)
  exact Prod.ext (Vector.toList_inj.1 hleft) (Vector.toList_inj.1 hright)

/-- A position behind one list is behind the other. -/
theorem length_le_of_leafAt (hdomain : Separate domain)
    (hinj : Set.InjOn C.sha256 (frames C domain xs ∪ frames C domain ys))
    {d : Nat} (hys : ys.length ≤ 2 ^ d)
    (h : ∀ j < 2 ^ d, leafAt C (xs.map (leaf C domain)) j =
      leafAt C (ys.map (leaf C domain)) j) : ys.length ≤ xs.length := by
  by_contra hlt
  have hget := h xs.length (by omega)
  have hbehind : xs.length < (ys.map (leaf C domain)).length := by
    rw [List.length_map]
    omega
  rw [leafAt_of_lt hbehind, leafAt,
    List.getD_eq_default _ _ (List.length_map _).le] at hget
  simp only [List.get_eq_getElem, List.getElem_map] at hget
  have hframe := hinj (.inl (.inr (.inr rfl)))
    (.inr (.inl ⟨_, List.getElem_mem _, rfl⟩)) hget
  exact hdomain.empty
    (domainFrame_inj (by decide) hdomain.short hframe).1.symm

/-- Equal roots have equal payloads, in the order of the leaves. -/
theorem payloads_eq_of_root_eq (hdomain : Separate domain)
    (hinj : Set.InjOn C.sha256 (frames C domain xs ∪ frames C domain ys))
    (h : root C (xs.map (leaf C domain)) =
      root C (ys.map (leaf C domain))) : xs = ys := by
  have hinj' : Set.InjOn C.sha256
      (frames C domain ys ∪ frames C domain xs) := Set.union_comm _ _ ▸ hinj
  rw [root_eq_treeRoot, root_eq_treeRoot, treeRoot, treeRoot] at h
  obtain ⟨hdepth, hleaves⟩ := MerkleTree.leaves_eq_of_node_eq
    (apart_of_injOn hinj) (outside_of_injOn hdomain hinj)
    (outside_of_injOn hdomain hinj') h
  simp only [Nat.zero_mul, Nat.zero_add, List.length_map] at hdepth hleaves
  have hxs := le_two_pow_depth xs.length
  have hys : ys.length ≤ 2 ^ depth xs.length :=
    hdepth ▸ le_two_pow_depth ys.length
  have hlength : xs.length = ys.length :=
    Nat.le_antisymm
      (length_le_of_leafAt hdomain hinj' hxs fun j hj => (hleaves j hj).symm)
      (length_le_of_leafAt hdomain hinj hys hleaves)
  refine List.ext_getElem hlength fun j hj hj' => ?_
  have hget := hleaves j (hj.trans_le hxs)
  rw [leafAt_of_lt (by rwa [List.length_map]),
    leafAt_of_lt (by rwa [List.length_map])] at hget
  simp only [List.get_eq_getElem, List.getElem_map] at hget
  have hframe := hinj (.inl (.inl ⟨_, List.getElem_mem hj, rfl⟩))
    (.inr (.inl ⟨_, List.getElem_mem hj', rfl⟩)) hget
  exact (domainFrame_inj hdomain.short hdomain.short hframe).2

end Binding

end ZephyrChain.Merkle
