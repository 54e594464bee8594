/-
Authentication paths of the state tree: `Verify` accepts what `Prove`
makes, and accepts nothing but the truth.

A proof leaves out the siblings that are the default of their depth and
marks the others in a bitmap, read in the order from the leaf up. Which
sibling `Verify` uses at a depth is therefore a function of the bitmap
alone (`proofSibling`): the default, or the entry whose index is the
number of marks below. `verify_iff` says that the whole loop is one
comparison, the library's chain of preimages with these siblings against
the root, plus a count. Completeness and soundness are then the
library's two facts about chains.

`verify_sound_on` is the soundness the rest of the development uses: it
asks the hash to be free of collisions only among the preimages one
verification and one tree path visit.
-/
import ZephyrChain.State.Proofs.Tree

namespace ZephyrChain.State

open Lib Lib.SparseMerkle

variable {H : Type} {A : Hasher H}

-- ==== verifier's view

/-- How many of the first `i` levels a bitmap marks. -/
def markCount (bitmap : Bytes32) (i : Nat) : Nat :=
  (List.range i).countP (bitmapBit bitmap)

theorem markCount_succ (bitmap : Bytes32) (i : Nat) :
    markCount bitmap (i + 1) =
      markCount bitmap i + if bitmapBit bitmap i then 1 else 0 := by
  simp [markCount, List.range_succ, List.countP_append, List.countP_singleton]

theorem markCount_mono (bitmap : Bytes32) {i j : Nat} (h : i ≤ j) :
    markCount bitmap i ≤ markCount bitmap j := by
  induction j, h using Nat.le_induction with
  | base => exact le_rfl
  | succ j _ ih =>
    rw [markCount_succ]
    omega

/-- The sibling `Verify` uses at a depth. -/
def proofSibling (A : Hasher H) (proof : Proof H) (depth : Nat) : H :=
  if bitmapBit proof.bitmap (treeDepth - depth) then
    (proof.siblings[markCount proof.bitmap (treeDepth - depth)]?).getD
      (defaults A depth)
  else defaults A depth

/-- The preimage `Verify` starts from. -/
def claimedLeaf (key : Hash) (value : Option Bytes) :
    Preimage Hash Bytes H :=
  leafPre (fun _ => value) key

/-- The chain of preimages `Verify` hashes. -/
def verifyClaim (A : Hasher H) (key : Hash) (value : Option Bytes)
    (proof : Proof H) (height : Nat) : Preimage Hash Bytes H :=
  claim A key (proofSibling A proof) (claimedLeaf key value) height

variable {depth : Nat}

/-- One level of the chain, as the loop body writes it. -/
theorem verifyClaim_succ (key : Hash) (value : Option Bytes)
    (proof : Proof H) (hd : depth < treeDepth) :
    A (verifyClaim A key value proof (treeDepth - depth)) =
      (if bitAt key depth = 0 then
        branchHash A (A (verifyClaim A key value proof
          (treeDepth - (depth + 1)))) (proofSibling A proof (depth + 1))
      else branchHash A (proofSibling A proof (depth + 1))
        (A (verifyClaim A key value proof (treeDepth - (depth + 1))))) := by
  have hh : treeDepth - depth = treeDepth - (depth + 1) + 1 := by omega
  have hbit : treeDepth - (treeDepth - (depth + 1) + 1) = depth := by omega
  have hsib : treeDepth - (treeDepth - (depth + 1)) = depth + 1 := by omega
  rw [hh, verifyClaim, claim, hbit, hsib]
  simp only [bitAt_eq_zero]
  change A (combine (keyBit key depth) _ _) = _
  cases keyBit key depth
  case false => rfl
  case true => rfl

variable [DecidableEq H]

/-- The loop of `Verify`, started anywhere on its own chain. -/
theorem verifyFrom_eq (root : H) (key : Hash) (value : Option Bytes)
    (proof : Proof H) (hd : depth ≤ treeDepth) :
    verifyFrom A root key proof depth
        (A (verifyClaim A key value proof (treeDepth - depth)))
        (markCount proof.bitmap (treeDepth - depth)) =
      decide (markCount proof.bitmap treeDepth = proof.siblings.length ∧
        A (verifyClaim A key value proof treeDepth) = root) := by
  induction depth with
  | zero =>
    rw [verifyFrom, Nat.sub_zero, Bool.decide_and]
  | succ depth ih =>
    have hstep := verifyClaim_succ (A := A) key value proof hd
    have hlevel : treeDepth - depth = treeDepth - (depth + 1) + 1 := by
      omega
    have hcount := markCount_succ proof.bitmap (treeDepth - (depth + 1))
    rw [← hlevel] at hcount
    have ih := ih (by omega)
    rw [verifyFrom]
    simp only
    split
    case isTrue hbit =>
      rw [if_pos hbit] at hcount
      split
      case h_1 hnone =>
        -- a mark without a sibling: the count cannot come out right
        have hle := List.getElem?_eq_none_iff.1 hnone
        have hmono := markCount_mono proof.bitmap
          (Nat.sub_le treeDepth depth)
        symm
        rw [decide_eq_false_iff_not]
        omega
      case h_2 sibling hsome =>
        have hs : proofSibling A proof (depth + 1) = sibling := by
          rw [proofSibling, if_pos hbit, hsome]
          rfl
        rw [hs] at hstep
        rw [← hstep, ← hcount]
        exact ih
    case isFalse hbit =>
      have hs : proofSibling A proof (depth + 1) =
          defaults A (depth + 1) := by
        rw [proofSibling, if_neg hbit]
      rw [if_neg hbit, Nat.add_zero] at hcount
      rw [hs] at hstep
      rw [← hstep, ← hcount]
      exact ih

/-- What `Verify` checks. -/
theorem verify_iff (root : H) (key : Hash) (value : Option Bytes)
    (proof : Proof H) :
    verify A root key value proof = true ↔
      proof.present = value.isSome ∧
        markCount proof.bitmap treeDepth = proof.siblings.length ∧
        A (verifyClaim A key value proof treeDepth) = root := by
  have hleaf : leafDigest A key value =
      A (verifyClaim A key value proof (treeDepth - treeDepth)) := by
    rw [Nat.sub_self, verifyClaim, claim, claimedLeaf]
    exact leafDigest_eq (m := fun _ => value) rfl
  have hzero : markCount proof.bitmap (treeDepth - treeDepth) = 0 := by
    rw [Nat.sub_self]
    rfl
  have hloop := verifyFrom_eq (A := A) root key value proof le_rfl
  rw [hzero, ← hleaf] at hloop
  unfold verify
  split
  case isTrue hne => simp [hne]
  case isFalse heq =>
    rw [hloop, decide_eq_true_iff]
    simp [not_not.1 heq]

-- ==== soundness

omit [DecidableEq H] in
/-- The preimages one verification and one path of the tree visit. -/
def visited (A : Hasher H) (m : Hash → Option Bytes) (key : Hash)
    (value : Option Bytes) (proof : Proof H) :
    Set (Preimage Hash Bytes H) :=
  {x | ∃ h, h ≤ treeDepth ∧
    (x = verifyClaim A key value proof h ∨ x = pathPre A m key h)}

/-- A verified value is the stored one, whatever the proof, when the hash
has no collision among the preimages visited. -/
theorem verify_sound_on {m : Hash → Option Bytes} {key : Hash}
    {value : Option Bytes} {proof : Proof H}
    (hinj : Set.InjOn A (visited A m key value proof))
    (hv : verify A (SparseMerkle.root A m) key value proof = true) :
    value = m key := by
  obtain ⟨-, -, hroot⟩ := (verify_iff _ key value proof).1 hv
  have hleaf := claim_sound (proofSibling A proof) hinj
    (fun h hh => ⟨h, hh, Or.inl rfl⟩) (fun h hh => ⟨h, hh, Or.inr rfl⟩)
    hroot
  exact leafPre_inj hleaf

-- ==== completeness

variable {t : Tree H}

omit [DecidableEq H] in
/-- The nodes beside a key's path, as `Prove` reads them. -/
theorem Coherent.getNode_sibling (ht : Coherent A t) (key : Hash)
    (hd : depth < treeDepth) :
    getNode A t.nodes (depth + 1)
        (toggleBit (prefixAtDepth key (depth + 1)) depth) =
      pathSibling A t.values key (depth + 1) := by
  have hmask := prefixAtDepth_sibling key hd
  rw [getNode_eq_view, hmask, ht.shows (depth + 1) hd _ hmask]
  rfl

/-- The levels whose sibling a proof must carry. -/
def carried (A : Hasher H) (m : Hash → Option Bytes) (key : Hash)
    (i : Nat) : Bool :=
  decide (pathSibling A m key (treeDepth - i) ≠ defaults A (treeDepth - i))

/-- What the loop of `Prove` has collected after `i` levels. -/
def Collected (A : Hasher H) (m : Hash → Option Bytes) (key : Hash)
    (i : Nat) (acc : Bytes32 × List H) : Prop :=
  (∀ j, j < treeDepth →
    bitmapBit acc.1 j = (decide (j < i) && carried A m key j)) ∧
  acc.2 = ((List.range i).filter (carried A m key)).map
    fun j => pathSibling A m key (treeDepth - j)

theorem Collected.step {m : Hash → Option Bytes} {key : Hash}
    (hd : depth < treeDepth) {bitmap : Bytes32} {siblings : List H}
    (hc : Collected A m key (treeDepth - (depth + 1)) (bitmap, siblings)) :
    Collected A m key (treeDepth - depth)
      (if pathSibling A m key (depth + 1) = defaults A (depth + 1) then
        (bitmap, siblings)
      else (setBitmapBit bitmap (treeDepth - (depth + 1)),
        siblings ++ [pathSibling A m key (depth + 1)])) := by
  obtain ⟨hbits, hsibs⟩ := hc
  have hlevel : treeDepth - depth = treeDepth - (depth + 1) + 1 := by omega
  have hback : treeDepth - (treeDepth - (depth + 1)) = depth + 1 := by omega
  have hlt : treeDepth - (depth + 1) < treeDepth := by omega
  generalize hi : treeDepth - (depth + 1) = i at *
  simp only at hsibs
  rw [hlevel]
  split
  case isTrue hdef =>
    have hnot : carried A m key i = false := by
      simp [carried, hback, hdef]
    refine ⟨fun j hj => ?_, ?_⟩
    · rw [hbits j hj]
      by_cases hji : j = i
      · subst hji
        simp [hnot]
      · have : j < i + 1 ↔ j < i := by omega
        simp [this]
    · simp [List.range_succ, List.filter_append, hnot, hsibs]
  case isFalse hdef =>
    have hyes : carried A m key i = true := by
      simp [carried, hback, hdef]
    refine ⟨fun j hj => ?_, ?_⟩
    · rw [bitmapBit_setBitmapBit bitmap hj hlt, hbits j hj]
      by_cases hji : j = i
      · subst hji
        simp [hyes]
      · have : j < i + 1 ↔ j < i := by omega
        simp [this, hji]
    · simp [List.range_succ, List.filter_append, hyes, hsibs, hback]

theorem Coherent.proveFrom (ht : Coherent A t) (key : Hash)
    (hd : depth ≤ treeDepth) {acc : Bytes32 × List H}
    (hc : Collected A t.values key (treeDepth - depth) acc) :
    Collected A t.values key treeDepth (t.proveFrom A key depth acc) := by
  induction depth generalizing acc with
  | zero => exact hc
  | succ depth ih =>
    obtain ⟨bitmap, siblings⟩ := acc
    rw [Tree.proveFrom, ht.getNode_sibling key hd]
    exact ih (by omega) (hc.step hd)

end ZephyrChain.State
