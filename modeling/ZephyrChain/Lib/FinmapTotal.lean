/-
Totals over finite maps. `total f m` adds up a measure over the values of
a map. Erasing an entry takes its measure away, and an insertion counts
the new value instead of the one it replaces.
-/
import Mathlib.Data.Finmap
import Mathlib.Algebra.BigOperators.Group.Finset.Basic

namespace ZephyrChain.Lib

variable {κ β : Type} [DecidableEq κ]

/-- The sum of a measure over the values of a map. -/
def total (f : β → Nat) (m : Finmap fun _ : κ => β) : Nat :=
  ∑ k ∈ m.keys, (m.lookup k).elim 0 f

variable {f : β → Nat}

theorem total_erase (m : Finmap fun _ : κ => β) (k : κ) :
    total f (m.erase k) + (m.lookup k).elim 0 f = total f m := by
  have hrest : total f (m.erase k) =
      ∑ k' ∈ m.keys.erase k, (m.lookup k').elim 0 f := by
    unfold total
    rw [Finmap.keys_erase]
    refine Finset.sum_congr rfl fun k' hk' => ?_
    rw [Finmap.lookup_erase_ne (Finset.ne_of_mem_erase hk')]
  rw [hrest]
  by_cases hk : k ∈ m.keys
  · exact Finset.sum_erase_add _ _ hk
  · rw [Finset.erase_eq_of_notMem hk,
      Finmap.lookup_eq_none.2 (mt Finmap.mem_keys.2 hk)]
    rfl

theorem total_insert_add (m : Finmap fun _ : κ => β) (k : κ) (b : β) :
    total f (m.insert k b) + (m.lookup k).elim 0 f = total f m + f b := by
  have herase : (m.insert k b).erase k = m.erase k := by
    refine Finmap.ext_lookup fun k' => ?_
    by_cases hk : k' = k
    · rw [hk, Finmap.lookup_erase, Finmap.lookup_erase]
    · rw [Finmap.lookup_erase_ne hk, Finmap.lookup_erase_ne hk,
        Finmap.lookup_insert_of_ne _ hk]
  rw [← total_erase (m.insert k b) k, ← total_erase m k, herase,
    Finmap.lookup_insert]
  exact Nat.add_right_comm _ _ _

end ZephyrChain.Lib
