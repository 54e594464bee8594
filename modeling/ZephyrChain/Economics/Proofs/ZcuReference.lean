/-
The reference of a compute unit moves by a bounded step, as long as its
class keeps enough slots.

# One epoch

`medianWalk_eq_ok` splits the sorted slots at the one the walk stops at.
Everything in front of it weighs less than half, everything up to it at
least half, so its performance is the least that reaches half
(`weightedMedianSlot_isLeast`). The result is averaged and then cut off
at a step from the prior reference (`rateLimitQ9_mem`), and never
becomes zero (`reference_ne_zero`).

# Runs

A class without enough slots has no reference in the snapshot of that
epoch, and the next call, which sees only that snapshot, takes the class
for a new one: nothing limits the reference it comes back with
(`reference_jumps_after_gap`). When every class keeps its slots the
references form a chain of bounded steps (`zcu_reference_limited`).
-/
import ZephyrChain.Economics.ZcuReference
import ZephyrChain.Economics.Proofs.ComputeIndex
import ZephyrChain.Lib.SortBy
import Mathlib.Order.Bounds.Basic

namespace ZephyrChain.Economics

open Lib

/-- The weight of the slots up to a performance. -/
def weightUpTo (slots : List WeightedSlot) (p : UInt64) : Nat :=
  ((slots.filter fun s => s.performance ≤ p).map fun s => s.weight.toNat).sum

def slotsWeight (slots : List WeightedSlot) : Nat :=
  (slots.map fun s => s.weight.toNat).sum

-- ==== weighted median

section Median

variable {slots : List WeightedSlot} {m : UInt64}

theorem medianWalk_eq_ok {threshold cumulative : UInt64}
    (hstart : cumulative < threshold)
    (h : medianWalk threshold slots cumulative = .ok m) :
    ∃ pre s post, slots = pre ++ s :: post ∧ m = s.performance ∧
      cumulative.toNat + slotsWeight pre < threshold.toNat ∧
      threshold.toNat ≤
        cumulative.toNat + slotsWeight pre + s.weight.toNat := by
  induction slots generalizing cumulative with
  | nil => cases h
  | cons s slots ih =>
    simp only [medianWalk, ok_iff] at h
    obtain ⟨hno, h⟩ := h
    have hsum := toNat_add_of_fits hno
    split at h
    case isTrue hreach =>
      refine ⟨[], s, slots, rfl, ((pure_eq_ok _ _).1 h).symm,
        UInt64.lt_iff_toNat_lt.1 hstart, ?_⟩
      rw [UInt64.le_iff_toNat_le, hsum] at hreach
      exact hreach
    case isFalse hshort =>
      obtain ⟨pre, s', post, rfl, hm, hlow, hhigh⟩ :=
        ih (UInt64.not_le.1 hshort) h
      refine ⟨s :: pre, s', post, rfl, hm, ?_, ?_⟩ <;>
        simp only [slotsWeight, List.map_cons, List.sum_cons] at * <;>
        omega

theorem weightUpTo_append (xs ys : List WeightedSlot) (p : UInt64) :
    weightUpTo (xs ++ ys) p = weightUpTo xs p + weightUpTo ys p := by
  rw [weightUpTo, List.filter_append, List.map_append, List.sum_append]
  rfl

theorem weightUpTo_of_le {p : UInt64}
    (h : ∀ s ∈ slots, s.performance ≤ p) :
    weightUpTo slots p = slotsWeight slots := by
  rw [weightUpTo, List.filter_eq_self.2 fun s hs => decide_eq_true (h s hs)]
  rfl

theorem weightUpTo_of_lt {p : UInt64}
    (h : ∀ s ∈ slots, p < s.performance) : weightUpTo slots p = 0 := by
  rw [weightUpTo, List.filter_eq_nil_iff.2 fun s hs => by
    rw [decide_eq_true_iff, UInt64.not_le]
    exact h s hs]
  rfl

theorem weightUpTo_le (p : UInt64) : weightUpTo slots p ≤ slotsWeight slots :=
  List.Sublist.sum_le_sum (List.filter_sublist.map _)
    fun _ _ => Nat.zero_le _

theorem weightUpTo_perm {slots' : List WeightedSlot}
    (hperm : slots.Perm slots') (p : UInt64) :
    weightUpTo slots p = weightUpTo slots' p :=
  ((hperm.filter _).map _).sum_eq

theorem key_inj {a b : WeightedSlot} (h : a.key = b.key) : a = b := by
  obtain ⟨hp, hw⟩ := Prod.mk.inj (toLex_inj.1 h)
  cases a
  cases b
  cases UInt64.toNat_inj.1 hp
  cases UInt64.toNat_inj.1 hw
  rfl

theorem sortSlots_perm (slots : List WeightedSlot) :
    (sortSlots slots).Perm slots :=
  List.perm_insertionSort _ _

theorem sortSlots_eq_of_perm {slots' : List WeightedSlot}
    (hperm : slots.Perm slots') : sortSlots slots = sortSlots slots' :=
  insertionSort_eq_of_key hperm fun _ _ _ _ => key_inj

theorem sortSlots_sorted (slots : List WeightedSlot) :
    (sortSlots slots).Pairwise fun a b => a.performance ≤ b.performance := by
  have hpair : (sortSlots slots).Pairwise fun a b => a.key ≤ b.key :=
    pairwise_insertionSort_key slots
  refine hpair.imp fun hab => ?_
  rw [UInt64.le_iff_toNat_le]
  rcases Prod.Lex.toLex_le_toLex.1 hab with h | h
  · exact Nat.le_of_lt h
  · exact Nat.le_of_eq h.1

/-- The weighted median is the least performance that reaches half of the
weight. -/
theorem weightedMedianSlot_isLeast {total : UInt64}
    (h : weightedMedianSlot (sortSlots slots) = .ok (m, total)) :
    m ≠ 0 ∧ total.toNat = slotsWeight slots ∧
      IsLeast {p : UInt64 | slotsWeight slots ≤ 2 * weightUpTo slots p} m := by
  have hperm := sortSlots_perm slots
  have hweight : slotsWeight (sortSlots slots) = slotsWeight slots :=
    (hperm.map _).sum_eq
  simp only [weightedMedianSlot, ok_iff, Prod.mk.injEq, not_or, Nat.not_le,
    not_exists, not_and] at h
  obtain ⟨-, hnonzero, ⟨hfits, hpos⟩, _, hwalk, rfl, rfl⟩ := h
  change slotsWeight (sortSlots slots) < _ at hfits
  change slotsWeight (sortSlots slots) ≠ 0 at hpos
  change medianWalk (UInt64.ofNat (slotsWeight (sortSlots slots)) / 2 +
    UInt64.ofNat (slotsWeight (sortSlots slots)) % 2) _ _ = _ at hwalk
  have htotal : (UInt64.ofNat (slotsWeight (sortSlots slots))).toNat =
      slotsWeight slots := by
    rw [← hweight]
    exact UInt64.toNat_ofNat_of_lt' hfits
  rw [hweight] at hfits hpos
  -- the threshold is half of the weight, rounded up
  have hhalf : (UInt64.ofNat (slotsWeight (sortSlots slots)) / 2 +
      UInt64.ofNat (slotsWeight (sortSlots slots)) % 2).toNat =
        slotsWeight slots / 2 + slotsWeight slots % 2 := by
    rw [UInt64.toNat_add, UInt64.toNat_div, UInt64.toNat_mod, htotal]
    exact Nat.mod_eq_of_lt (by
      show slotsWeight slots / 2 + slotsWeight slots % 2 < 2 ^ 64
      omega)
  obtain ⟨pre, s, post, hsplit, rfl, hlow, hhigh⟩ :=
    medianWalk_eq_ok (UInt64.lt_iff_toNat_lt.2 (by
      rw [hhalf, UInt64.toNat_zero]
      omega)) hwalk
  rw [hhalf, UInt64.toNat_zero, Nat.zero_add] at hlow hhigh
  have hsorted := sortSlots_sorted slots
  rw [hsplit] at hsorted hnonzero
  obtain ⟨-, hrest, hcross⟩ := List.pairwise_append.1 hsorted
  have hup : ∀ p, weightUpTo slots p =
      weightUpTo pre p + weightUpTo [s] p + weightUpTo post p := by
    intro p
    rw [← weightUpTo_perm hperm, hsplit, weightUpTo_append,
      ← List.singleton_append, weightUpTo_append, Nat.add_assoc]
  refine ⟨(hnonzero s (by simp)).1, htotal, ?_, fun p hp => ?_⟩
  · have hpre := weightUpTo_of_le fun x hx =>
      hcross x hx s List.mem_cons_self
    have hself : weightUpTo [s] s.performance = slotsWeight [s] :=
      weightUpTo_of_le fun x hx => by
        rw [List.mem_singleton.1 hx]
        exact UInt64.le_refl _
    have hone : slotsWeight [s] = s.weight.toNat := Nat.add_zero _
    show slotsWeight slots ≤ 2 * weightUpTo slots s.performance
    rw [hup]
    omega
  · -- below it only slots in front of it count
    by_contra hlt
    rw [UInt64.not_le] at hlt
    have hself : weightUpTo [s] p = 0 := weightUpTo_of_lt fun x hx => by
      rw [List.mem_singleton.1 hx]
      exact hlt
    have hpost : weightUpTo post p = 0 := weightUpTo_of_lt fun x hx =>
      UInt64.lt_of_lt_of_le hlt ((List.pairwise_cons.1 hrest).1 x hx)
    have hpre : weightUpTo pre p ≤ slotsWeight pre := weightUpTo_le p
    have hreach : slotsWeight slots ≤ 2 * weightUpTo slots p := hp
    rw [hup] at hreach
    omega

end Median

-- ==== rate limit

/-- The step a reference may take. -/
def WithinStep (c prev next : Nat) : Prop :=
  prev * (10000 - c) / 10000 ≤ next ∧ next ≤ prev * (10000 + c) / 10000

theorem rateLimitQ9_mem {prior next v : UInt64} {c : UInt32}
    (hbps : c ≤ basisPoints) (hc : c ≠ 0) (hprior : prior ≠ 0)
    (hnext : next ≠ 0) (h : rateLimitQ9 prior next c = .ok v) :
    v ≠ 0 ∧ WithinStep c.toNat prior.toNat v.toNat := by
  have hc' : c.toNat ≤ 10000 := UInt32.le_iff_toNat_le.1 hbps
  have hup : prior.toNat ≤ prior.toNat * (10000 + c.toNat) / 10000 := by
    rw [Nat.mul_add]
    omega
  have hdown : prior.toNat * (10000 - c.toNat) / 10000 ≤ prior.toNat :=
    Nat.div_le_of_le_mul (by
      rw [Nat.mul_comm]
      exact Nat.mul_le_mul_right _ (Nat.sub_le _ _))
  have hpos : ∀ x : UInt64, x ≠ 0 ↔ 0 < x.toNat := fun x => by
    rw [ne_eq, ← UInt64.toNat_inj, UInt64.toNat_zero, Nat.pos_iff_ne_zero]
  have hp := (hpos prior).1 hprior
  have hn := (hpos next).1 hnext
  have hadd : (basisPoints + c).toNat = 10000 + c.toNat := by
    rw [UInt32.toNat_add]
    exact Nat.mod_eq_of_lt (by
      show 10000 + c.toNat < 2 ^ 32
      omega)
  have hsub : (basisPoints - c).toNat = 10000 - c.toNat :=
    UInt32.toNat_sub_of_le _ _ hbps
  unfold rateLimitQ9 at h
  unfold WithinStep
  rw [hpos]
  split at h
  case isTrue heq =>
    obtain rfl := (pure_eq_ok _ _).1 h
    rcases heq with heq | heq | rfl
    · exact absurd heq hprior
    · exact absurd heq hc
    · exact ⟨hn, hdown, hup⟩
  case isFalse =>
    simp only [hadd, hsub, ok_iff, not_or, Nat.not_le] at h
    obtain ⟨⟨hfits, hfits'⟩, rfl⟩ := h
    split
    · rw [UInt64.toNat_ofNat_of_lt' hfits]
      omega
    · split
      · rw [UInt64.toNat_ofNat_of_lt' hfits']
        omega
      · omega

-- ==== one epoch

/-- The slots of a class that carry weight. -/
def countedSlots (slots : List VerifiedComputeSlot) (k : Fin 12) : Nat :=
  (slots.filter fun s => s.workClass.toNat = k.val ∧ s.effective ≠ 0).length

/-- The class has the slots a reference takes. -/
def Enough (cfg : ZCUReferenceConfig) (slots : List VerifiedComputeSlot)
    (k : Fin 12) : Prop :=
  cfg.minSlotsPerClass ≤ UInt32.ofNat (countedSlots slots k)

instance (cfg : ZCUReferenceConfig) (slots : List VerifiedComputeSlot)
    (k : Fin 12) : Decidable (Enough cfg slots k) :=
  inferInstanceAs (Decidable (_ ≤ _))

section Epoch

variable {cfg : ZCUReferenceConfig} {prior out : ZCUReferenceSnapshot}
  {slots : List VerifiedComputeSlot} {k : Fin 12}
variable {weighed : List (UInt8 × WeightedSlot)}

theorem length_weighed (h : slots.mapM weighSlot = .ok weighed)
    (k : Fin 12) :
    ((weighed.filter fun p =>
      p.1.toNat = k.val ∧ p.2.weight ≠ 0).map (·.2)).length =
        countedSlots slots k := by
  have hall := mapM_eq_ok h
  clear h
  rw [List.length_map]
  induction hall with
  | nil => rfl
  | cons hw _ ih =>
    simp only [weighSlot, effectiveSlotWeight, ok_iff, Nat.not_le] at hw
    obtain ⟨-, _, ⟨hfits, rfl⟩, rfl⟩ := hw
    have hzero : ∀ n < 2 ^ 64, UInt64.ofNat n ≠ 0 ↔ n ≠ 0 := fun n hn => by
      rw [ne_eq, ← UInt64.toNat_inj, UInt64.toNat_ofNat_of_lt' hn,
        UInt64.toNat_zero]
    unfold countedSlots at ih ⊢
    rw [List.filter_cons, List.filter_cons]
    simp only [hzero _ hfits]
    split
    · rw [List.length_cons, List.length_cons, ih]
    · exact ih

theorem ewma_ne_zero {p m v : UInt64} {alpha : UInt32}
    (halpha : alpha ≤ basisPoints) (hm : m ≠ 0)
    (h : ewma p m alpha = .ok v) : v ≠ 0 := by
  obtain ⟨v', hv', hvalue⟩ := @ewma_eq p m alpha halpha
  obtain rfl := Except.ok.inj (h.symm.trans hv')
  have hpos : ∀ x : UInt64, x ≠ 0 → 1 ≤ x.toNat := fun x hx =>
    Nat.pos_of_ne_zero fun h => hx (UInt64.toNat_inj.1 h)
  have hmem := @blend_mem p.toNat m.toNat alpha.toNat 1 (2 ^ 64)
    (UInt32.le_iff_toNat_le.1 halpha)
    (fun hp => ⟨Nat.pos_of_ne_zero hp, Nat.le_of_lt p.toNat_lt⟩)
    ⟨hpos m hm, Nat.le_of_lt m.toNat_lt⟩
  intro hzero
  rw [hzero] at hvalue
  rw [← hvalue] at hmem
  exact Nat.not_succ_le_zero 0 hmem.1

/-- What one class of an epoch does to the references. -/
theorem addReference_eq_ok {s s' : ZCUReferenceSnapshot}
    (halpha : cfg.ewmaBps ≤ basisPoints)
    (hbps : cfg.maxEpochChangeBps ≤ basisPoints)
    (hmin : cfg.minSlotsPerClass ≠ 0) (hc : cfg.maxEpochChangeBps ≠ 0)
    (hweighed : slots.mapM weighSlot = .ok weighed)
    (h : addReference cfg prior weighed s k = .ok s') :
    (∀ j, j ≠ k → s'.classReferenceQ9.get j = s.classReferenceQ9.get j) ∧
    (¬ Enough cfg slots k ∧
        s'.classReferenceQ9.get k = s.classReferenceQ9.get k ∨
      s'.classReferenceQ9.get k ≠ 0 ∧
        (prior.classReferenceQ9.get k ≠ 0 →
          WithinStep cfg.maxEpochChangeBps.toNat
            (prior.classReferenceQ9.get k).toNat
            (s'.classReferenceQ9.get k).toNat)) := by
  have hcount := length_weighed hweighed k
  unfold addReference at h
  simp only at h
  generalize (weighed.filter fun p =>
    p.1.toNat = k.val ∧ p.2.weight ≠ 0).map (·.2) = slots' at h hcount
  have henough : Enough cfg slots k ↔
      ¬ UInt32.ofNat slots'.length < cfg.minSlotsPerClass := by
    rw [Enough, ← hcount, UInt32.not_lt]
  split at h
  case isTrue hnil =>
    obtain rfl := (pure_eq_ok _ _).1 h
    refine ⟨fun _ _ => rfl, .inl ⟨?_, rfl⟩⟩
    rw [henough, hnil, not_not, UInt32.lt_iff_toNat_lt]
    exact Nat.pos_of_ne_zero fun hz => hmin (UInt32.toNat_inj.1 hz)
  case isFalse =>
    obtain ⟨⟨m, total⟩, hmedian, h⟩ := bind_eq_ok.1 h
    simp only at h
    split at h
    case isTrue hfew =>
      obtain rfl := (pure_eq_ok _ _).1 h
      exact ⟨fun _ _ => rfl, .inl ⟨fun hn => henough.1 hn hfew, rfl⟩⟩
    case isFalse =>
      simp only [ok_iff] at h
      obtain ⟨average, haverage, reference, hlimit, rfl⟩ := h
      have hnext := ewma_ne_zero halpha
        (weightedMedianSlot_isLeast hmedian).1 haverage
      have hstep := fun hprior : prior.classReferenceQ9.get k ≠ 0 =>
        rateLimitQ9_mem hbps hc hprior hnext hlimit
      simp only [get_set, if_true]
      refine ⟨fun j hj => if_neg hj.symm, .inr ?_⟩
      refine ⟨?_, fun hprior => (hstep hprior).2⟩
      by_cases hprior : prior.classReferenceQ9.get k = 0
      · unfold rateLimitQ9 at hlimit
        rw [if_pos (.inl hprior), pure_eq_ok] at hlimit
        exact hlimit ▸ hnext
      · exact (hstep hprior).1

/-- What one epoch does to the references. -/
theorem build_references {epoch : UInt64} (hc : cfg.maxEpochChangeBps ≠ 0)
    (h : buildZCUReference epoch slots prior cfg = .ok out) :
    ∀ k ∈ workClasses,
      (Enough cfg slots k → out.classReferenceQ9.get k ≠ 0) ∧
      (out.classReferenceQ9.get k ≠ 0 → prior.classReferenceQ9.get k ≠ 0 →
        WithinStep cfg.maxEpochChangeBps.toNat
          (prior.classReferenceQ9.get k).toNat
          (out.classReferenceQ9.get k).toNat) := by
  simp only [buildZCUReference, ok_iff, not_or, UInt32.not_lt] at h
  obtain ⟨⟨-, hmin, halpha, hbps⟩, -, weighed, hweighed, h⟩ := h
  refine foldlM_entries (fun s k => s.classReferenceQ9.get k)
    (fun k v => (Enough cfg slots k → v ≠ 0) ∧
      (v ≠ 0 → prior.classReferenceQ9.get k ≠ 0 →
        WithinStep cfg.maxEpochChangeBps.toNat
          (prior.classReferenceQ9.get k).toNat v.toNat))
    (by decide) (fun s k s' hs => ?_) (fun s k s' hs hzero => ?_) h
  · exact (addReference_eq_ok halpha hbps hmin hc hweighed hs).1
  · rcases (addReference_eq_ok halpha hbps hmin hc hweighed hs).2 with
      ⟨hfew, hkept⟩ | ⟨hne, hstep⟩
    · have hnone : s'.classReferenceQ9.get k = 0 := by
        rw [hkept, hzero]
        show (Vector.replicate 12 (0 : UInt64))[k.val] = 0
        exact Vector.getElem_replicate _
      exact ⟨fun hn => absurd hn hfew, fun hne => absurd hnone hne⟩
    · exact ⟨fun _ => hne, fun _ => hstep⟩

theorem addReference_perm {weighed' : List (UInt8 × WeightedSlot)}
    (hperm : weighed.Perm weighed') :
    addReference cfg prior weighed = addReference cfg prior weighed' := by
  funext s k
  have hclass := (hperm.filter fun p =>
    decide (p.1.toNat = k.val ∧ p.2.weight ≠ 0)).map (·.2)
  have hnil : (weighed.filter fun p => decide (p.1.toNat = k.val ∧
      p.2.weight ≠ 0)).map (·.2) = [] ↔ (weighed'.filter fun p =>
        decide (p.1.toNat = k.val ∧ p.2.weight ≠ 0)).map (·.2) = [] :=
    ⟨fun h => (h ▸ hclass).symm.eq_nil, fun h => (h ▸ hclass).eq_nil⟩
  unfold addReference
  simp only [hclass.length_eq, sortSlots_eq_of_perm hclass, hnil]

/-- The snapshot depends on the slots up to their order. -/
theorem buildZCUReference_perm {epoch : UInt64}
    {slots' : List VerifiedComputeSlot} (hperm : slots.Perm slots')
    (h : buildZCUReference epoch slots prior cfg = .ok out) :
    buildZCUReference epoch slots' prior cfg = .ok out := by
  simp only [buildZCUReference, ok_iff] at h ⊢
  obtain ⟨hcfg, hepoch, weighed, hweighed, h⟩ := h
  obtain ⟨weighed', hweighed', hp⟩ := mapM_perm hperm hweighed
  exact ⟨hcfg, hepoch, weighed', hweighed', addReference_perm hp ▸ h⟩

end Epoch

-- ==== runs

/-- In every epoch the classes that have a reference have their slots. -/
def KeepsSlots (cfg : ZCUReferenceConfig) : ZCUReferenceSnapshot →
    List (UInt64 × List VerifiedComputeSlot) → List ZCUReferenceSnapshot →
      Prop
  | prior, (_, slots) :: inputs, snapshot :: snapshots =>
    (∀ k ∈ workClasses, prior.classReferenceQ9.get k ≠ 0 →
      Enough cfg slots k) ∧ KeepsSlots cfg snapshot inputs snapshots
  | _, _, _ => True

instance : (cfg : ZCUReferenceConfig) → (prior : ZCUReferenceSnapshot) →
    (inputs : List (UInt64 × List VerifiedComputeSlot)) →
    (snapshots : List ZCUReferenceSnapshot) →
      Decidable (KeepsSlots cfg prior inputs snapshots)
  | _, _, [], _ => .isTrue trivial
  | _, _, _ :: _, [] => .isTrue trivial
  | cfg, _, _ :: inputs, snapshot :: snapshots =>
    have := instDecidableKeepsSlots cfg snapshot inputs snapshots
    inferInstanceAs (Decidable (_ ∧ _))

/-- Two references with nothing but missing ones between them are a step
apart. -/
def RateLimited (c : Nat) (references : List Nat) : Prop :=
  ∀ i j (hij : i < j) (hj : j < references.length),
    references[i] ≠ 0 → references[j] ≠ 0 →
    (∀ m (_ : i < m) (hm : m < j), references[m] = 0) →
    WithinStep c references[i] references[j]

/-- The references of a class, the one the run starts from first. -/
def references (first : ZCUReferenceSnapshot)
    (snapshots : List ZCUReferenceSnapshot) (k : Fin 12) : List Nat :=
  (first :: snapshots).map fun s => (s.classReferenceQ9.get k).toNat

theorem rateLimited_of_chain {c : Nat} {refs : List Nat}
    (h : refs.IsChain fun a b => a ≠ 0 → b ≠ 0 ∧ WithinStep c a b) :
    RateLimited c refs := by
  intro i j hij hj hi hne hgap
  have hnext := List.isChain_iff_getElem.1 h i (by omega) hi
  rcases Nat.lt_or_ge (i + 1) j with hlt | hge
  · exact absurd (hgap (i + 1) (Nat.lt_succ_self i) hlt) hnext.1
  · obtain rfl : j = i + 1 := by omega
    exact hnext.2

theorem references_chain {cfg : ZCUReferenceConfig}
    (hc : cfg.maxEpochChangeBps ≠ 0) {k : Fin 12} (hk : k ∈ workClasses)
    {inputs : List (UInt64 × List VerifiedComputeSlot)}
    {first : ZCUReferenceSnapshot} {snapshots : List ZCUReferenceSnapshot}
    (hrun : zcuReferences cfg first inputs = .ok snapshots)
    (hkeeps : KeepsSlots cfg first inputs snapshots) :
    (references first snapshots k).IsChain fun a b =>
      a ≠ 0 → b ≠ 0 ∧ WithinStep cfg.maxEpochChangeBps.toNat a b := by
  induction inputs generalizing first snapshots with
  | nil =>
    obtain rfl := Except.ok.inj hrun
    exact List.isChain_singleton _
  | cons input inputs ih =>
    obtain ⟨epoch, slots⟩ := input
    simp only [zcuReferences, ok_iff] at hrun
    obtain ⟨snapshot, hbuild, rest, hrest, rfl⟩ := hrun
    obtain ⟨hslots, hkeeps⟩ := hkeeps
    refine List.isChain_cons_cons.2 ⟨fun hne => ?_, ih hrest hkeeps⟩
    have hprior : first.classReferenceQ9.get k ≠ 0 := fun hz =>
      hne (congrArg UInt64.toNat hz)
    obtain ⟨hreliable, hstep⟩ := build_references hc hbuild k hk
    have hnext := hreliable (hslots k hk hprior)
    exact ⟨fun hz => hnext (UInt64.toNat_inj.1 hz), hstep hnext hprior⟩

/-- The class medians are the least performances that reach half of the
weight, in any order of the slots, and along a run whose classes keep
their slots the references move by limited steps. -/
theorem zcu_reference_limited (cfg : ZCUReferenceConfig)
    (hc : cfg.maxEpochChangeBps ≠ 0) (first : ZCUReferenceSnapshot)
    (inputs : List (UInt64 × List VerifiedComputeSlot))
    (snapshots : List ZCUReferenceSnapshot)
    (hrun : zcuReferences cfg first inputs = .ok snapshots) :
    (∀ slots m total,
      weightedMedianSlot (sortSlots slots) = .ok (m, total) →
      total.toNat = slotsWeight slots ∧
      IsLeast {p : UInt64 | slotsWeight slots ≤ 2 * weightUpTo slots p} m ∧
      ∀ slots', slots.Perm slots' →
        weightedMedianSlot (sortSlots slots') = .ok (m, total)) ∧
    (∀ epoch slots slots' prior out, slots.Perm slots' →
      buildZCUReference epoch slots prior cfg = .ok out →
      buildZCUReference epoch slots' prior cfg = .ok out) ∧
    (KeepsSlots cfg first inputs snapshots → ∀ k ∈ workClasses,
      RateLimited cfg.maxEpochChangeBps.toNat
        (references first snapshots k)) := by
  refine ⟨fun slots m total h => ?_, fun _ _ _ _ _ =>
    buildZCUReference_perm, fun hkeeps k hk =>
      rateLimited_of_chain (references_chain hc hk hrun hkeeps)⟩
  obtain ⟨-, htotal, hleast⟩ := weightedMedianSlot_isLeast h
  exact ⟨htotal, hleast, fun slots' hperm => sortSlots_eq_of_perm hperm ▸ h⟩

-- ==== a gap

/-- One slot is enough, no averaging, one percent an epoch. -/
def gapConfig : ZCUReferenceConfig := ⟨1, 10000, 100⟩

def gapSlot (performance : UInt64) : VerifiedComputeSlot :=
  ⟨1, performance, 1, 10000, 10000, 10000⟩

/-- The references of a class along a run. -/
def gapReferences (inputs : List (UInt64 × List VerifiedComputeSlot))
    (k : Fin 12) : Except Error (List Nat) := do
  let snapshots ← zcuReferences gapConfig .none inputs
  return references .none snapshots k

/-- Two epochs, ten times the performance in the second. -/
def steadyInputs : List (UInt64 × List VerifiedComputeSlot) :=
  [(1, [gapSlot 100]), (2, [gapSlot 1000])]

theorem zcu_reference_limited_steady : ∃ snapshots,
    zcuReferences gapConfig .none steadyInputs = .ok snapshots ∧
      RateLimited 100 (references .none snapshots 1) := by
  have h : (do
      let snapshots ← zcuReferences gapConfig .none steadyInputs
      return decide (KeepsSlots gapConfig .none steadyInputs snapshots) :
        Except Error Bool) = .ok true := by
    decide +kernel
  simp only [bind_eq_ok, pure_eq_ok] at h
  obtain ⟨snapshots, hrun, hkeeps⟩ := h
  exact ⟨snapshots, hrun, (zcu_reference_limited gapConfig (by decide) _ _
    snapshots hrun).2.2 (of_decide_eq_true hkeeps) 1 (by decide)⟩

/-- The class comes back after an epoch without slots, ten times higher. -/
theorem reference_jumps_after_gap : ∃ snapshots,
    zcuReferences gapConfig .none
        [(1, [gapSlot 100]), (2, []), (3, [gapSlot 1000])] = .ok snapshots ∧
      references .none snapshots 1 = [0, 100, 0, 1000] ∧
      ¬ RateLimited gapConfig.maxEpochChangeBps.toNat
        (references .none snapshots 1) := by
  have h : gapReferences [(1, [gapSlot 100]), (2, []),
      (3, [gapSlot 1000])] 1 = .ok [0, 100, 0, 1000] := by
    decide +kernel
  simp only [gapReferences, bind_eq_ok, pure_eq_ok] at h
  obtain ⟨snapshots, hrun, hrefs⟩ := h
  refine ⟨snapshots, hrun, hrefs, fun hlimited => ?_⟩
  rw [hrefs] at hlimited
  have hstep := hlimited 1 3 (by decide) (by decide) (by decide) (by decide)
    (fun m hlo hhi => by
      obtain rfl : m = 2 := by omega
      rfl)
  exact absurd hstep.2 (by decide)

end ZephyrChain.Economics
