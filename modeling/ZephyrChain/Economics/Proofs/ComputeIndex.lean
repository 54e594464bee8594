/-
The compute price index stays inside the range of what went into it.

# What enters

`samplesOf` are the prices of a class in natural numbers, `classPrice`
the price the class gets: the moving average of the prior price and the
median of the samples. Both averages always fit, so a class can never
fail (`addClass_eq`), and the loop over the classes is a pair of sums
over the classes that are active (`index_loop`).

# What follows

Medians and averages stay between their samples, and a permutation of
the observations permutes the samples of each class, which are sorted
before anything else is done with them.
-/
import ZephyrChain.Economics.ComputeMarket
import ZephyrChain.Lib.Averages

namespace ZephyrChain.Economics

open Lib

variable {cfg : ComputeIndexConfig} {prior : ComputeIndexSnapshot}
  {observations : List VerifiedWork}

/-- The price of a unit of work. -/
def priceOf (w : VerifiedWork) : Nat :=
  w.paidZPH.toNat * priceScaleQ9 / w.units.toNat

/-- The prices of a class. -/
def samplesOf (observations : List VerifiedWork) (k : Fin 12) : List Nat :=
  (observations.filter fun w => w.workClass.toNat = k.val).map priceOf

/-- The class has enough samples and a weight. -/
def Active (cfg : ComputeIndexConfig) (observations : List VerifiedWork)
    (k : Fin 12) : Prop :=
  cfg.minSamplesPerClass ≤ UInt32.ofNat (samplesOf observations k).length ∧
    cfg.weightsBps.get k ≠ 0

instance (k : Fin 12) : Decidable (Active cfg observations k) :=
  inferInstanceAs (Decidable (_ ∧ _))

def activeClasses (cfg : ComputeIndexConfig)
    (observations : List VerifiedWork) : List (Fin 12) :=
  workClasses.filter fun k => Active cfg observations k

/-- The median of a class's samples. -/
def classMedian (samples : List Nat) : Nat :=
  median (samples.insertionSort (· ≤ ·))

/-- The price of a class in the new index. -/
def classPrice (cfg : ComputeIndexConfig) (prior : ComputeIndexSnapshot)
    (observations : List VerifiedWork) (k : Fin 12) : Nat :=
  blend (prior.classPriceQ9.get k).toNat
    (classMedian (samplesOf observations k)) cfg.ewmaBps.toNat

def weightOf (cfg : ComputeIndexConfig) (k : Fin 12) : Nat :=
  (cfg.weightsBps.get k).toNat

-- ==== one class

/-- Setting the entry of one class. -/
theorem get_set {α : Type} {n : Nat} (v : Vector α n) (k j : Fin n) (x : α) :
    (v.set k x).get j = if k = j then x else v.get j := by
  show (v.set k.val x)[j.val] = _
  rw [Vector.getElem_set]
  simp only [Fin.ext_iff]
  rfl

theorem sorted_toNat {xs : List UInt64} :
    (xs.insertionSort (· ≤ ·)).map UInt64.toNat =
      (xs.map UInt64.toNat).insertionSort (· ≤ ·) :=
  List.map_insertionSort _ _ _ _ fun _ _ _ _ => UInt64.le_iff_toNat_le

theorem medianUint64_toNat {xs : List UInt64}
    (hs : xs.Pairwise (· ≤ ·)) :
    (medianUint64 xs).toNat = median (xs.map UInt64.toNat) := by
  have hat : ∀ i, (xs.map UInt64.toNat).getD i 0 = (xs.getD i 0).toNat := by
    intro i
    rw [List.getD_eq_getElem?_getD, List.getD_eq_getElem?_getD,
      List.getElem?_map]
    cases xs[i]? <;> rfl
  unfold medianUint64 median
  simp only [hat, List.length_map]
  split
  case isTrue => rfl
  case isFalse heven =>
    have hle : (xs.getD (xs.length / 2 - 1) 0).toNat ≤
        (xs.getD (xs.length / 2) 0).toNat := by
      rcases xs.eq_nil_or_concat with rfl | hne
      · exact Nat.le_refl _
      · have hpos : 0 < xs.length := by
          obtain ⟨ys, y, rfl⟩ := hne
          simp
        have hmid : xs.length / 2 < xs.length := by omega
        have hprev : xs.length / 2 - 1 < xs.length := by omega
        rw [List.getD_eq_getElem?_getD, List.getD_eq_getElem?_getD,
          List.getElem?_eq_getElem hmid, List.getElem?_eq_getElem hprev]
        exact UInt64.le_iff_toNat_le.1
          (List.pairwise_iff_getElem.1 hs _ _ hprev hmid (by omega))
    generalize xs.getD (xs.length / 2 - 1) 0 = low at hle ⊢
    generalize xs.getD (xs.length / 2) 0 = high at hle ⊢
    have hhigh := high.toNat_lt
    have hhalf : ((high - low) / 2).toNat = (high.toNat - low.toNat) / 2 := by
      rw [UInt64.toNat_div, UInt64.toNat_sub_of_le _ _
        (UInt64.le_iff_toNat_le.2 hle)]
      rfl
    rw [UInt64.toNat_add, hhalf, Nat.mod_eq_of_lt (by omega)]

theorem ewma_eq {p c : UInt64} {alpha : UInt32} (h : alpha ≤ basisPoints) :
    ∃ v, ewma p c alpha = .ok v ∧
      v.toNat = blend p.toNat c.toNat alpha.toNat := by
  have ha : alpha.toNat ≤ 10000 := UInt32.le_iff_toNat_le.1 h
  have hzero : p = 0 ↔ p.toNat = 0 := by
    rw [← UInt64.toNat_inj]
    rfl
  have hfull : alpha = basisPoints ↔ alpha.toNat = 10000 := by
    rw [← UInt32.toNat_inj]
    rfl
  have hnone : alpha = 0 ↔ alpha.toNat = 0 := by
    rw [← UInt32.toNat_inj]
    rfl
  have hrest : (basisPoints - alpha).toNat = 10000 - alpha.toNat :=
    UInt32.toNat_sub_of_le _ _ h
  unfold ewma blend
  by_cases hp : p.toNat = 0
  · rw [if_pos (.inl (hzero.2 hp)), if_pos hp]
    exact ⟨c, rfl, rfl⟩
  by_cases hall : alpha.toNat = 10000
  · rw [if_pos (.inr (hfull.2 hall)), if_neg hp, hall]
    refine ⟨c, rfl, ?_⟩
    omega
  by_cases hno : alpha.toNat = 0
  · rw [if_neg (by rw [hzero, hfull]; omega), if_neg hp,
      if_pos (hnone.2 hno), hno]
    refine ⟨p, rfl, ?_⟩
    omega
  have hfits : (p.toNat * (10000 - alpha.toNat) + c.toNat * alpha.toNat) /
      10000 < 2 ^ 64 := by
    have hmem := @blend_mem p.toNat c.toNat alpha.toNat 0 (2 ^ 64 - 1) ha
      (fun _ => ⟨Nat.zero_le _, Nat.le_pred_of_lt p.toNat_lt⟩)
      ⟨Nat.zero_le _, Nat.le_pred_of_lt c.toNat_lt⟩
    rw [blend, if_neg hp] at hmem
    omega
  rw [if_neg (by rw [hzero, hfull]; omega), if_neg hp, if_neg (by
    rw [hnone]
    exact hno)]
  simp only [hrest]
  rw [refuse_of_not _ (Nat.not_le.2 hfits)]
  exact ⟨_, rfl, UInt64.toNat_ofNat_of_lt' hfits⟩

variable {prices : List (UInt8 × UInt64)}

theorem samples_of_prices (h : observations.mapM pricedWork = .ok prices)
    (k : Fin 12) :
    ((prices.filter fun p => p.1.toNat = k.val).map (·.2)).map
      UInt64.toNat = samplesOf observations k := by
  have hall := mapM_eq_ok h
  clear h
  induction hall with
  | nil => rfl
  | cons hw _ ih =>
    simp only [pricedWork, scaledRatio, ok_iff, Nat.not_le] at hw
    obtain ⟨-, _, ⟨-, hfits, rfl⟩, rfl⟩ := hw
    unfold samplesOf at ih ⊢
    rw [List.filter_cons, List.filter_cons]
    simp only
    split
    · rw [List.map_cons, List.map_cons, List.map_cons, ih,
        UInt64.toNat_ofNat_of_lt' hfits]
      rfl
    · exact ih

/-- A class never fails. When it is active its price enters the basket. -/
theorem addClass_eq (halpha : cfg.ewmaBps ≤ basisPoints)
    (hprices : observations.mapM pricedWork = .ok prices) (b : Basket)
    (k : Fin 12) :
    ∃ b', addClass cfg prior prices b k = .ok b' ∧
      b'.basket = b.basket + (if Active cfg observations k
        then classPrice cfg prior observations k * weightOf cfg k else 0) ∧
      b'.activeWeight = b.activeWeight + (if Active cfg observations k
        then (cfg.weightsBps.get k).toUInt64 else 0) ∧
      b'.snapshot.coverageBps = b.snapshot.coverageBps ∧
      ∀ j, (b'.snapshot.classPriceQ9.get j).toNat =
        if j = k ∧ Active cfg observations k
        then classPrice cfg prior observations k
        else (b.snapshot.classPriceQ9.get j).toNat := by
  have hsamples := samples_of_prices hprices k
  have hactive : (UInt32.ofNat ((prices.filter fun p =>
      p.1.toNat = k.val).map (·.2)).length < cfg.minSamplesPerClass ∨
        cfg.weightsBps.get k = 0) ↔ ¬ Active cfg observations k := by
    rw [Active, ← hsamples, List.length_map (f := UInt64.toNat), not_and_or,
      not_not, UInt32.not_le]
  unfold addClass
  simp only
  by_cases h : Active cfg observations k
  · rw [if_neg fun hn => hactive.1 hn h]
    obtain ⟨v, hv, hvalue⟩ := ewma_eq (p := prior.classPriceQ9.get k)
      (c := medianUint64 (((prices.filter fun p =>
        p.1.toNat = k.val).map (·.2)).insertionSort (· ≤ ·))) halpha
    rw [medianUint64_toNat (List.pairwise_insertionSort _ _), sorted_toNat,
      hsamples] at hvalue
    rw [hv, ok_bind]
    refine ⟨_, rfl, ?_, ?_, rfl, fun j => ?_⟩
    · rw [if_pos h, hvalue]
      rfl
    · rw [if_pos h]
    · simp only [get_set]
      by_cases hj : k = j
      · rw [if_pos hj, if_pos ⟨hj.symm, h⟩, hvalue]
        rfl
      · rw [if_neg hj, if_neg fun hn => hj hn.1.symm]
  · rw [if_pos (hactive.2 h)]
    refine ⟨_, rfl, ?_, ?_, rfl, fun j => ?_⟩
    · rw [if_neg h, Nat.add_zero]
    · rw [if_neg h, UInt64.add_zero]
    · rw [if_neg fun hn => h hn.2]

-- ==== the loop

/-- What the loop has put together after some of the classes. -/
structure IndexLoop (cfg : ComputeIndexConfig) (prior : ComputeIndexSnapshot)
    (observations : List VerifiedWork) (done : List (Fin 12)) (b : Basket) :
    Prop where
  basket : b.basket = ((done.filter fun k => Active cfg observations k).map
    fun k => classPrice cfg prior observations k * weightOf cfg k).sum
  weight : b.activeWeight.toNat =
    ((done.filter fun k => Active cfg observations k).map (weightOf cfg)).sum
  coverage : b.snapshot.coverageBps = 0
  price : ∀ k ∈ done, Active cfg observations k →
    (b.snapshot.classPriceQ9.get k).toNat =
      classPrice cfg prior observations k

theorem sum_weights_le (ks : List (Fin 12)) :
    (ks.map (weightOf cfg)).sum ≤ ks.length * 2 ^ 32 := by
  induction ks with
  | nil => exact Nat.le_refl 0
  | cons k ks ih =>
    have hk : weightOf cfg k < 2 ^ 32 := (cfg.weightsBps.get k).toNat_lt
    rw [List.map_cons, List.sum_cons, List.length_cons]
    omega

theorem index_loop {b₀ b : Basket} (halpha : cfg.ewmaBps ≤ basisPoints)
    (hprices : observations.mapM pricedWork = .ok prices)
    (hbasket : b₀.basket = 0) (hweight : b₀.activeWeight = 0)
    (hcoverage : b₀.snapshot.coverageBps = 0)
    (h : workClasses.foldlM (addClass cfg prior prices) b₀ = .ok b) :
    IndexLoop cfg prior observations workClasses b := by
  refine foldlM_prefix (IndexLoop cfg prior observations)
    ⟨hbasket, by rw [hweight]; rfl, hcoverage, fun k hk => by cases hk⟩
    ?_ h
  intro done k s s' hdone hs hstep
  obtain ⟨b', hb', hbasket', hweight', hcover', hprice'⟩ :=
    @addClass_eq cfg prior observations prices halpha hprices s k
  obtain rfl := Except.ok.inj (hb'.symm.trans hstep)
  have hlength : done.length < 11 := by
    have := hdone.length_le
    rw [List.length_append] at this
    exact this
  have hfiltered := List.length_filter_le
    (fun k => decide (Active cfg observations k)) done
  have hbound := @sum_weights_le cfg
    (done.filter fun k => Active cfg observations k)
  have hk : weightOf cfg k < 2 ^ 32 := (cfg.weightsBps.get k).toNat_lt
  refine ⟨?_, ?_, hcover'.trans hs.coverage, fun j hj hactive => ?_⟩
  · rw [hbasket', hs.basket, List.filter_append, List.map_append,
      List.sum_append]
    by_cases hactive : Active cfg observations k <;> simp [hactive]
  · rw [hweight', List.filter_append, List.map_append, List.sum_append,
      UInt64.toNat_add, hs.weight]
    by_cases hactive : Active cfg observations k
    · simp only [hactive, decide_true, if_true, List.filter_cons_of_pos,
        List.filter_nil, List.map_cons, List.map_nil, List.sum_cons,
        List.sum_nil, UInt32.toNat_toUInt64]
      exact Nat.mod_eq_of_lt (by
        show _ + weightOf cfg k < _
        omega)
    · simp only [hactive, decide_false, if_false, List.filter_nil,
        List.filter_cons_of_neg, Bool.false_eq_true, not_false_eq_true,
        List.map_nil, List.sum_nil, UInt64.toNat_zero, Nat.add_zero]
      exact Nat.mod_eq_of_lt (by omega)
  · rw [hprice']
    by_cases hsame : j = k
    · subst hsame
      rw [if_pos ⟨rfl, hactive⟩]
    · rw [if_neg fun hn => hsame hn.1]
      refine hs.price j ?_ hactive
      rcases List.mem_append.1 hj with hj | hj
      · exact hj
      · exact absurd (List.mem_singleton.1 hj) hsame

theorem totalWeightOf_toNat :
    (totalWeightOf cfg).toNat = (workClasses.map (weightOf cfg)).sum := by
  have hgen : ∀ (ks : List (Fin 12)) (total : UInt64),
      total.toNat + ks.length * 2 ^ 32 < 2 ^ 64 →
      (ks.foldl (fun total k => total + (cfg.weightsBps.get k).toUInt64)
        total).toNat = total.toNat + (ks.map (weightOf cfg)).sum := by
    intro ks
    induction ks with
    | nil => exact fun total _ => rfl
    | cons k ks ih =>
      intro total hroom
      have hk : weightOf cfg k < 2 ^ 32 := (cfg.weightsBps.get k).toNat_lt
      have hadd : (total + (cfg.weightsBps.get k).toUInt64).toNat =
          total.toNat + weightOf cfg k := by
        rw [UInt64.toNat_add, UInt32.toNat_toUInt64]
        exact Nat.mod_eq_of_lt (by
          show total.toNat + weightOf cfg k < _
          rw [List.length_cons] at hroom
          omega)
      rw [List.length_cons] at hroom
      rw [List.foldl_cons, ih _ (by omega), hadd, List.map_cons,
        List.sum_cons, Nat.add_assoc]
  exact (hgen workClasses 0 (by decide)).trans (Nat.zero_add _)

-- ==== order of observations

/-- A loop that collects results follows a permutation. -/
theorem mapM_perm {ε α β : Type} {f : α → Except ε β} {xs ys : List α}
    (hperm : xs.Perm ys) {as : List β} (h : xs.mapM f = .ok as) :
    ∃ bs, ys.mapM f = .ok bs ∧ as.Perm bs := by
  induction hperm generalizing as with
  | nil => exact ⟨as, h, .refl as⟩
  | cons x _ ih =>
    simp only [List.mapM_cons, ok_iff] at h ⊢
    obtain ⟨a, ha, rest, hrest, rfl⟩ := h
    obtain ⟨bs, hbs, hp⟩ := ih hrest
    exact ⟨_, ⟨a, ha, bs, hbs, rfl⟩, hp.cons a⟩
  | swap x y _ =>
    simp only [List.mapM_cons, ok_iff] at h ⊢
    obtain ⟨b, hb, _, ⟨a, ha, rest, hrest, rfl⟩, rfl⟩ := h
    exact ⟨_, ⟨a, ha, _, ⟨b, hb, rest, hrest, rfl⟩, rfl⟩, .swap a b rest⟩
  | trans _ _ ih₁ ih₂ =>
    obtain ⟨bs, hbs, hp⟩ := ih₁ h
    obtain ⟨cs, hcs, hq⟩ := ih₂ hbs
    exact ⟨cs, hcs, hp.trans hq⟩

theorem addClass_perm {prices' : List (UInt8 × UInt64)}
    (hperm : prices.Perm prices') :
    addClass cfg prior prices = addClass cfg prior prices' := by
  funext b k
  have hclass := (hperm.filter fun p => decide (p.1.toNat = k.val)).map
    (·.2)
  have hsorted : ((prices.filter fun p => p.1.toNat = k.val).map
      (·.2)).insertionSort (· ≤ ·) = ((prices'.filter fun p =>
        p.1.toNat = k.val).map (·.2)).insertionSort (· ≤ ·) :=
    List.Perm.eq_of_pairwise
      (fun _ _ _ _ hab hba => UInt64.le_antisymm hab hba)
      (List.pairwise_insertionSort _ _) (List.pairwise_insertionSort _ _)
      ((List.perm_insertionSort _ _).trans
        (hclass.trans (List.perm_insertionSort _ _).symm))
  unfold addClass
  simp only [hsorted, hclass.length_eq]

/-- The index depends on the observations up to their order. -/
theorem buildComputeIndex_perm {epoch : UInt64}
    {observations' : List VerifiedWork} {out : ComputeIndexSnapshot}
    (hperm : observations.Perm observations')
    (h : buildComputeIndex epoch observations prior cfg = .ok out) :
    buildComputeIndex epoch observations' prior cfg = .ok out := by
  unfold buildComputeIndex at h ⊢
  simp only [ok_iff] at h ⊢
  obtain ⟨hcfg, hweight, prices, hprices, b, hb, hrest⟩ := h
  obtain ⟨prices', hprices', hp⟩ := mapM_perm hperm hprices
  exact ⟨hcfg, hweight, prices', hprices', b, addClass_perm hp ▸ hb, hrest⟩

-- ==== the bounds

/-- The index of these observations lies inside their range. -/
structure IndexBounds (cfg : ComputeIndexConfig)
    (prior : ComputeIndexSnapshot) (observations : List VerifiedWork)
    (out : ComputeIndexSnapshot) : Prop where
  /-- A class price lies between the prior one and the samples. -/
  price : ∀ k ∈ activeClasses cfg observations, ∀ lo hi,
    ((prior.classPriceQ9.get k).toNat ≠ 0 →
      lo ≤ (prior.classPriceQ9.get k).toNat ∧
        (prior.classPriceQ9.get k).toNat ≤ hi) →
    (∀ s ∈ samplesOf observations k, lo ≤ s ∧ s ≤ hi) →
    lo ≤ (out.classPriceQ9.get k).toNat ∧
      (out.classPriceQ9.get k).toNat ≤ hi
  /-- The basket lies between the active class prices. -/
  basket : activeClasses cfg observations ≠ [] → ∀ lo hi,
    (∀ k ∈ activeClasses cfg observations,
      lo ≤ (out.classPriceQ9.get k).toNat ∧
        (out.classPriceQ9.get k).toNat ≤ hi) →
    lo ≤ out.basketPriceQ9.toNat ∧ out.basketPriceQ9.toNat ≤ hi
  coverage : out.coverageBps.toNat =
    10000 * ((activeClasses cfg observations).map (weightOf cfg)).sum /
      (workClasses.map (weightOf cfg)).sum
  covered : out.coverageBps.toNat ≤ 10000

variable {k : Fin 12}

theorem weight_pos (hk : k ∈ activeClasses cfg observations) :
    0 < weightOf cfg k := by
  have hactive := of_decide_eq_true (List.mem_filter.1 hk).2
  refine Nat.pos_of_ne_zero fun hzero => hactive.2 ?_
  exact UInt32.toNat_inj.1 hzero

theorem samples_ne_nil (hmin : cfg.minSamplesPerClass ≠ 0)
    (hk : k ∈ activeClasses cfg observations) :
    samplesOf observations k ≠ [] := by
  intro hnil
  have hactive := (of_decide_eq_true (List.mem_filter.1 hk).2).1
  rw [hnil, UInt32.le_iff_toNat_le] at hactive
  exact hmin (UInt32.toNat_inj.1 (Nat.le_zero.1 hactive))

theorem sorted_samples (samples : List Nat) :
    (samples.insertionSort (· ≤ ·)).Pairwise (· ≤ ·) :=
  List.pairwise_insertionSort _ _

theorem classPrice_mem (halpha : cfg.ewmaBps ≤ basisPoints)
    (hne : samplesOf observations k ≠ []) {lo hi : Nat}
    (hprior : (prior.classPriceQ9.get k).toNat ≠ 0 →
      lo ≤ (prior.classPriceQ9.get k).toNat ∧
        (prior.classPriceQ9.get k).toNat ≤ hi)
    (hsamples : ∀ s ∈ samplesOf observations k, lo ≤ s ∧ s ≤ hi) :
    lo ≤ classPrice cfg prior observations k ∧
      classPrice cfg prior observations k ≤ hi := by
  have hperm := List.perm_insertionSort (· ≤ ·) (samplesOf observations k)
  refine blend_mem (UInt32.le_iff_toNat_le.1 halpha) hprior
    (median_mem_of_forall (sorted_samples _) ?_ fun s hs =>
      hsamples s (hperm.mem_iff.1 hs))
  exact fun hnil => hne (hnil ▸ hperm).symm.eq_nil

theorem index_bounds {epoch : UInt64} {out : ComputeIndexSnapshot}
    (h : buildComputeIndex epoch observations prior cfg = .ok out) :
    IndexBounds cfg prior observations out := by
  unfold buildComputeIndex at h
  simp only [ok_iff, not_or, UInt32.not_lt] at h
  obtain ⟨⟨-, hmin, -, halpha⟩, -, prices, hprices, b, hb, hout⟩ := h
  have hloop := index_loop halpha hprices rfl rfl rfl hb
  have hweight : b.activeWeight.toNat =
      ((activeClasses cfg observations).map (weightOf cfg)).sum :=
    hloop.weight
  have hle : ((activeClasses cfg observations).map (weightOf cfg)).sum ≤
      (workClasses.map (weightOf cfg)).sum :=
    List.Sublist.sum_le_sum (List.filter_sublist.map _)
      fun _ _ => Nat.zero_le _
  have htotal := @sum_weights_le cfg workClasses
  have hprice : ∀ k ∈ activeClasses cfg observations,
      (b.snapshot.classPriceQ9.get k).toNat =
        classPrice cfg prior observations k := fun k hk =>
    hloop.price k (List.mem_filter.1 hk).1
      (of_decide_eq_true (List.mem_filter.1 hk).2)
  have hclass : out.classPriceQ9 = b.snapshot.classPriceQ9 := by
    split at hout
    · rw [← (pure_eq_ok _ _).1 hout]
    · simp only [ok_iff] at hout
      rw [← hout.2]
  have hbound : 10000 * ((activeClasses cfg observations).map
      (weightOf cfg)).sum / (workClasses.map (weightOf cfg)).sum ≤ 10000 :=
    Nat.div_le_of_le_mul (by
      rw [Nat.mul_comm]
      exact Nat.mul_le_mul_right 10000 hle)
  have hcoverage : out.coverageBps.toNat = 10000 *
      ((activeClasses cfg observations).map (weightOf cfg)).sum /
        (workClasses.map (weightOf cfg)).sum := by
    split at hout
    case isTrue hzero =>
      rw [hzero] at hweight
      rw [← (pure_eq_ok _ _).1 hout, hloop.coverage, ← hweight]
      exact (Nat.zero_div _).symm
    case isFalse =>
      simp only [ok_iff] at hout
      have hratio : (b.activeWeight * 10000 / totalWeightOf cfg).toNat =
          10000 * ((activeClasses cfg observations).map (weightOf cfg)).sum /
            (workClasses.map (weightOf cfg)).sum := by
        have hlength : workClasses.length = 11 := rfl
        rw [hlength] at htotal
        rw [UInt64.toNat_div, UInt64.toNat_mul, totalWeightOf_toNat,
          hweight, Nat.mul_comm]
        exact congrArg (· / _) (Nat.mod_eq_of_lt (by
          show 10000 * _ < 2 ^ 64
          omega))
      have hnot : ¬ 10000 < b.activeWeight * 10000 / totalWeightOf cfg := by
        rw [UInt64.lt_iff_toNat_lt, hratio]
        exact Nat.not_lt.2 hbound
      rw [← hout.2]
      simp only
      rw [if_neg hnot, UInt64.toNat_toUInt32, hratio]
      exact Nat.mod_eq_of_lt (Nat.lt_of_le_of_lt hbound (by decide))
  refine ⟨fun k hk lo hi hprior hsamples => ?_, fun hne lo hi hbounds => ?_,
    hcoverage, hcoverage ▸ hbound⟩
  · rw [hclass, hprice k hk]
    exact classPrice_mem halpha (samples_ne_nil hmin hk) hprior hsamples
  · have hpos : 0 < ((activeClasses cfg observations).map
        (weightOf cfg)).sum := by
      obtain ⟨k, hk⟩ := List.exists_mem_of_ne_nil _ hne
      exact Nat.lt_of_lt_of_le (weight_pos hk)
        (List.single_le_sum (fun _ _ => Nat.zero_le _) _
          (List.mem_map_of_mem hk))
    have hmem := @average_mem _ (classPrice cfg prior observations)
      (weightOf cfg) (activeClasses cfg observations) lo hi (fun k hk => by
        rw [← hprice k hk, ← hclass]
        exact hbounds k hk) hpos
    rw [if_neg fun hzero => by
      rw [hzero] at hweight
      rw [← hweight] at hpos
      exact Nat.lt_irrefl 0 hpos] at hout
    simp only [ok_iff, Nat.not_le] at hout
    obtain ⟨hfits, rfl⟩ := hout
    have hvalue : (UInt64.ofNat (b.basket / b.activeWeight.toNat)).toNat =
        b.basket / b.activeWeight.toNat := UInt64.toNat_ofNat_of_lt' hfits
    simp only [hvalue]
    rw [hloop.basket, hweight]
    exact hmem

/-- The index lies inside the range of what went into it, whatever the
order, and its medians withstand a minority of arbitrary samples. -/
theorem compute_index_bounds (epoch : UInt64)
    (observations : List VerifiedWork) (prior : ComputeIndexSnapshot)
    (cfg : ComputeIndexConfig) (out : ComputeIndexSnapshot)
    (h : buildComputeIndex epoch observations prior cfg = .ok out) :
    IndexBounds cfg prior observations out ∧
    (∀ observations', observations.Perm observations' →
      buildComputeIndex epoch observations' prior cfg = .ok out) ∧
    ∀ k kept old new lo hi,
      (samplesOf observations k).Perm (kept ++ old) →
      2 * old.length < (samplesOf observations k).length →
      (∀ s ∈ kept, lo ≤ s ∧ s ≤ hi) →
      ∀ values : List UInt64, (values.map UInt64.toNat).Perm (kept ++ new) →
        new.length = old.length →
        lo ≤ (medianUint64 (values.insertionSort (· ≤ ·))).toNat ∧
          (medianUint64 (values.insertionSort (· ≤ ·))).toNat ≤ hi := by
  refine ⟨index_bounds h, fun _ hperm => buildComputeIndex_perm hperm h,
    fun k kept old new lo hi hold hfew hkept values hnew hlength => ?_⟩
  have hsame := hold.length_eq
  have hsize := hnew.length_eq
  rw [List.length_append] at hsame hsize
  rw [medianUint64_toNat (List.pairwise_insertionSort _ _), sorted_toNat]
  refine median_mem_of_replaced (sorted_samples _)
    ((List.perm_insertionSort _ _).trans hnew) ?_ hkept
  rw [(List.perm_insertionSort _ _).length_eq]
  omega

/-- Equal weights, one sample is enough. -/
def sampleIndexConfig : ComputeIndexConfig :=
  ⟨Vector.replicate 12 1, 1, 0, 5000⟩

def sampleWork : List VerifiedWork := [⟨1, 1, 1⟩, ⟨1, 1, 3⟩, ⟨2, 2, 5⟩]

theorem compute_index_bounds_sample : ∃ out,
    buildComputeIndex 1 sampleWork .none sampleIndexConfig = .ok out ∧
      IndexBounds sampleIndexConfig .none sampleWork out := by
  have hok : (buildComputeIndex 1 sampleWork .none
      sampleIndexConfig).isOk = true := by
    decide +kernel
  obtain ⟨out, h⟩ := exists_of_isOk hok
  exact ⟨out, h, (compute_index_bounds 1 _ _ _ out h).1⟩

end ZephyrChain.Economics
