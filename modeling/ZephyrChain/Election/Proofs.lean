/-
The outcome of an election.

# Shape of the argument

- The comparison of two validators is `<` of a lexicographic key
  (`before_iff`), so candidates with different addresses have one order
  and any sort finds it.
- Each loop succeeds exactly when its exact sums are below 2^64
  (`tally_eq_ok`, `addCandidates_eq_ok`, `addPowers_eq_ok`). Together:
  an election returns `vs` exactly when `Elected` holds of it, and
  `Elected` does not mention the order of anything (`elect_iff`).
- The rank of a validator is one more than the number of validators
  before it. Votes for it move its own key forward and no other.
-/
import ZephyrChain.Election
import Mathlib.Algebra.Ring.Nat
import Mathlib.Data.Prod.Lex
import Mathlib.Tactic.Common

namespace ZephyrChain.DPoS

open Lib
open Ledger (ElectionConfig normalizeElectionConfig)

variable {ρ : Type}

-- ==== the order

/-- Byte strings in the order of the language's strings. -/
local instance bytesLinearOrder : LinearOrder Bytes where
  le_refl := fun _ => Std.le_refl _
  le_trans := fun _ _ _ => Std.le_trans
  lt_iff_le_not_ge := fun _ _ => Std.lt_iff_le_and_not_ge
  le_antisymm := fun _ _ => Std.le_antisymm
  le_total := fun _ _ => Std.le_total
  toDecidableLE := inferInstance
  toOrd := ⟨fun a b => compareOfLessAndEq a b⟩
  compare_eq_compareOfLessAndEq := fun _ _ => rfl

section Order

variable [LinearOrder ρ]

/-- What a validator is sorted by. -/
def Validator.key (v : Validator ρ) : ℕᵒᵈ ×ₗ ℕᵒᵈ ×ₗ ρ ×ₗ Bytes :=
  toLex (OrderDual.toDual v.votingPower.toNat,
    toLex (OrderDual.toDual v.selfStake.toNat,
      toLex (v.commissionRate, v.address)))

theorem before_iff {v w : Validator ρ} : v.Before w ↔ v.key < w.key := by
  unfold Validator.Before Validator.key
  simp only [Prod.Lex.toLex_lt_toLex, OrderDual.toDual_lt_toDual,
    OrderDual.toDual_inj, UInt64.toNat_inj, UInt64.lt_iff_toNat_lt]
  by_cases hpower : v.votingPower = w.votingPower
  · by_cases hself : v.selfStake = w.selfStake
    · by_cases hrate : v.commissionRate = w.commissionRate
      · simp [hpower, hself, hrate]
      · simp [hpower, hself, hrate]
    · simp [hpower, hself]
  · simp [hpower]

omit [LinearOrder ρ] in
theorem address_of_key {v w : Validator ρ} (h : v.key = w.key) :
    v.address = w.address := by
  have hpair := (Prod.mk.inj (toLex_inj.1 h)).2
  have hrest := (Prod.mk.inj (toLex_inj.1 hpair)).2
  exact (Prod.mk.inj (toLex_inj.1 hrest)).2

/-- Any sort finds the one order of validators with different
addresses. -/
theorem sorted_run (sort : Sorting (Validator.Before (ρ := ρ)))
    {xs : List (Validator ρ)}
    (hnodup : (xs.map Validator.address).Nodup) :
    (sort.run xs).Pairwise Validator.Before := by
  have hperm := sort.perm xs
  have hrun : ((sort.run xs).map Validator.address).Nodup :=
    (hperm.map _).nodup_iff.2 hnodup
  refine ((sort.sorted xs).and (List.pairwise_map.1 hrun)).imp ?_
  rintro a b ⟨hle, hne⟩
  rw [before_iff, not_lt] at hle
  rw [before_iff]
  exact lt_of_le_of_ne hle fun heq => hne (address_of_key heq)

theorem run_eq_of_sorted (sort : Sorting (Validator.Before (ρ := ρ)))
    {xs sorted : List (Validator ρ)}
    (hnodup : (xs.map Validator.address).Nodup) (hperm : sorted.Perm xs)
    (hsorted : sorted.Pairwise Validator.Before) :
    sort.run xs = sorted := by
  refine List.Perm.eq_of_pairwise ?_ (sorted_run sort hnodup) hsorted
    ((sort.perm xs).trans hperm.symm)
  intro a b _ _ hab hba
  rw [before_iff] at hab hba
  exact absurd hba hab.asymm

end Order

-- ==== the votes

/-- The exact sum of the votes for an address. -/
def votesFor (votes : List Vote) (address : Bytes) : Nat :=
  ((votes.filter fun v => v.candidate = address).map
    fun v => v.amount.toNat).sum

/-- What a vote adds to an address. -/
def counted (index : AList fun _ : Bytes => Candidate ρ) (vote : Vote)
    (address : Bytes) : Nat :=
  if vote.candidate = address ∧ address ∈ index then vote.amount.toNat else 0

variable {index : AList fun _ : Bytes => Candidate ρ}

theorem countVote_eq_ok (hempty : [] ∉ index) {vote : Vote}
    {m m' : Bytes → UInt64} :
    countVote index m vote = .ok m' ↔
      (∀ a, (m a).toNat + counted index vote a < 2 ^ 64) ∧
        ∀ a, (m' a).toNat = (m a).toNat + counted index vote a := by
  have hskip : (∀ a, counted index vote a = 0) →
      ((Except.ok m : Except ElectionError _) = .ok m' ↔
        (∀ a, (m a).toNat + counted index vote a < 2 ^ 64) ∧
          ∀ a, (m' a).toNat = (m a).toNat + counted index vote a) := by
    intro hzero
    simp only [hzero, Nat.add_zero, Except.ok.injEq, UInt64.toNat_inj]
    exact ⟨fun h => ⟨fun a => (m a).toNat_lt, fun a => h ▸ rfl⟩,
      fun h => funext fun a => (h.2 a).symm⟩
  unfold countVote
  split
  case isTrue hnone =>
    refine hskip fun a => ?_
    unfold counted
    split
    case isTrue h =>
      rcases hnone with hnone | hnone
      · exact absurd (h.1.symm.trans hnone ▸ h.2) hempty
      · rw [hnone]
        rfl
    case isFalse => rfl
  case isFalse =>
    split
    case isTrue hout =>
      refine hskip fun a => if_neg ?_
      rintro ⟨rfl, hin⟩
      exact hout hin
    case isFalse hin =>
      rw [not_not] at hin
      simp only [ok_iff, not_overflows_iff]
      have hself : counted index vote vote.candidate = vote.amount.toNat :=
        if_pos ⟨rfl, hin⟩
      have hother : ∀ a, a ≠ vote.candidate → counted index vote a = 0 :=
        fun a ha => if_neg fun h => ha h.1.symm
      constructor
      · rintro ⟨hfits, rfl⟩
        refine ⟨fun a => ?_, fun a => ?_⟩
        · by_cases ha : a = vote.candidate
          · rw [ha, hself]
            exact hfits
          · rw [hother a ha]
            exact (m a).toNat_lt
        · by_cases ha : a = vote.candidate
          · rw [ha, Function.update_self, hself,
              toNat_add_of_fits (not_overflows_iff.2 hfits)]
          · rw [Function.update_of_ne ha, hother a ha, Nat.add_zero]
      · rintro ⟨hfits, hm'⟩
        have hfits := hself ▸ hfits vote.candidate
        refine ⟨hfits, funext fun a => UInt64.toNat_inj.1 ?_⟩
        rw [hm' a]
        by_cases ha : a = vote.candidate
        · rw [ha, Function.update_self, hself,
            toNat_add_of_fits (not_overflows_iff.2 hfits)]
        · rw [Function.update_of_ne ha, hother a ha, Nat.add_zero]

variable {votes : List Vote}

/-- The loop over the votes keeps exact sums. -/
theorem countVotes_eq_ok (hempty : [] ∉ index) {m m' : Bytes → UInt64} :
    votes.foldlM (countVote index) m = .ok m' ↔
      (∀ a, (m a).toNat + (votes.map (counted index · a)).sum < 2 ^ 64) ∧
        ∀ a, (m' a).toNat =
          (m a).toNat + (votes.map (counted index · a)).sum := by
  induction votes generalizing m with
  | nil =>
    simp only [List.foldlM_nil, pure_eq_ok, List.map_nil, List.sum_nil,
      Nat.add_zero, UInt64.toNat_inj]
    exact ⟨fun h => ⟨fun a => (m a).toNat_lt, fun a => h ▸ rfl⟩,
      fun h => funext fun a => (h.2 a).symm⟩
  | cons vote votes ih =>
    simp only [List.foldlM_cons, bind_eq_ok, countVote_eq_ok hempty, ih,
      List.map_cons, List.sum_cons, ← Nat.add_assoc]
    constructor
    · rintro ⟨m₁, ⟨_, hm₁⟩, hfits, hm'⟩
      simp only [hm₁] at hfits hm'
      exact ⟨hfits, hm'⟩
    · rintro ⟨hfits, hm'⟩
      have hfirst : ∀ a,
          (m a).toNat + counted index vote a < 2 ^ 64 :=
        fun a => Nat.lt_of_le_of_lt (Nat.le_add_right _ _) (hfits a)
      have hm₁ : ∀ a, (UInt64.ofNat ((m a).toNat +
          counted index vote a)).toNat =
            (m a).toNat + counted index vote a := fun a => by
        rw [UInt64.toNat_ofNat', Nat.mod_eq_of_lt (hfirst a)]
      refine ⟨fun a => UInt64.ofNat _, ⟨hfirst, hm₁⟩, ?_⟩
      simp only [hm₁]
      exact ⟨hfits, hm'⟩

variable {a : Bytes}

/-- For a candidate every vote counts. -/
theorem sum_counted (h : a ∈ index) (votes : List Vote) :
    (votes.map (counted index · a)).sum = votesFor votes a := by
  induction votes with
  | nil => rfl
  | cons vote votes ih =>
    rw [List.map_cons, List.sum_cons, ih, votesFor, votesFor,
      List.filter_cons, counted]
    by_cases hvote : vote.candidate = a
    · simp [hvote, h]
    · simp [hvote]

/-- For anyone else none does. -/
theorem sum_counted_of_notMem (h : a ∉ index) (votes : List Vote) :
    (votes.map (counted index · a)).sum = 0 := by
  refine List.sum_eq_zero fun n hn => ?_
  obtain ⟨vote, _, rfl⟩ := List.mem_map.1 hn
  exact if_neg fun hin => h hin.2

-- ==== the other loops

variable {cfg : ElectionConfig}

/-- The loop over the map keeps the eligible candidates. -/
theorem addCandidates_eq_ok {delegated : Bytes → UInt64}
    {entries : List ((_ : Bytes) × Candidate ρ)}
    {acc out : List (Validator ρ)} :
    entries.foldlM (addCandidate cfg delegated) acc = .ok out ↔
      (∀ e ∈ entries, Eligible cfg e.2 →
        e.2.selfStake.toNat + (delegated e.1).toNat < 2 ^ 64) ∧
      out = acc ++ (entries.filter fun e => Eligible cfg e.2).map
        fun e => e.2.validator (delegated e.1) := by
  induction entries generalizing acc with
  | nil => simp [pure_eq_ok, eq_comm (a := out)]
  | cons e entries ih =>
    rw [List.foldlM_cons, bind_eq_ok, List.forall_mem_cons, List.filter_cons]
    unfold addCandidate
    by_cases hok : Eligible cfg e.2
    · simp only [hok, not_true_eq_false, if_false, ok_iff, not_overflows_iff]
      constructor
      · rintro ⟨acc', ⟨hfits, rfl⟩, hrest⟩
        obtain ⟨hall, rfl⟩ := ih.1 hrest
        exact ⟨⟨fun _ => hfits, hall⟩, by simp⟩
      · rintro ⟨⟨hfits, hall⟩, rfl⟩
        exact ⟨_, ⟨hfits trivial, rfl⟩, ih.2 ⟨hall, by simp⟩⟩
    · simp only [hok, not_false_eq_true, if_true, Except.ok.injEq]
      constructor
      · rintro ⟨_, rfl, hrest⟩
        obtain ⟨hall, rfl⟩ := ih.1 hrest
        exact ⟨⟨fun h => h.elim, hall⟩, by simp⟩
      · rintro ⟨⟨_, hall⟩, rfl⟩
        exact ⟨acc, rfl, ih.2 ⟨hall, by simp⟩⟩

/-- The exact sum of the powers. -/
def totalPower (validators : List (Validator ρ)) : Nat :=
  (validators.map fun v => v.votingPower.toNat).sum

theorem addPowers_eq_ok {validators : List (Validator ρ)}
    {start : UInt64} :
    (∃ total, validators.foldlM addPower start = .ok total) ↔
      start.toNat + totalPower validators < 2 ^ 64 := by
  induction validators generalizing start with
  | nil => simpa [totalPower] using start.toNat_lt
  | cons v validators ih =>
    have hsum : totalPower (v :: validators) =
        v.votingPower.toNat + totalPower validators := rfl
    simp only [List.foldlM_cons, addPower, ok_iff, hsum, ← Nat.add_assoc]
    constructor
    · rintro ⟨total, _, ⟨hfits, rfl⟩, htotal⟩
      have h := ih.1 ⟨total, htotal⟩
      rwa [toNat_add_of_fits hfits] at h
    · intro hlt
      have hfits : ¬ Overflows start v.votingPower :=
        not_overflows_iff.2 (Nat.lt_of_le_of_lt (Nat.le_add_right _ _) hlt)
      obtain ⟨total, htotal⟩ := ih.2 (by rwa [toNat_add_of_fits hfits])
      exact ⟨total, _, ⟨hfits, rfl⟩, htotal⟩

theorem totalPower_ranked (validators : List (Validator ρ)) :
    totalPower (ranked validators) = totalPower validators := by
  unfold totalPower
  congr 1
  apply List.ext_getElem <;> simp [ranked]

/-- The candidates that have an address. -/
def named (candidates : List (Candidate ρ)) : List (Candidate ρ) :=
  candidates.filter fun c => c.address ≠ []

variable {candidates : List (Candidate ρ)}

/-- The map holds every candidate with an address once. -/
theorem indexOf_entries
    (hnodup : (candidates.map Candidate.address).Nodup) :
    (indexOf candidates).entries.Perm
      ((named candidates).map fun c => ⟨c.address, c⟩) := by
  -- the map is built from the front, so the invariant has a map to start
  have hloop : ∀ (cs : List (Candidate ρ))
      (start : AList fun _ : Bytes => Candidate ρ),
      (cs.map Candidate.address).Nodup →
      (∀ c ∈ cs, c.address ∉ start) →
      (cs.foldl (fun index c => if c.address = [] then index
        else index.insert c.address c) start).entries.Perm
        (((named cs).map fun c => ⟨c.address, c⟩) ++ start.entries) := by
    intro cs
    induction cs with
    | nil => exact fun start _ _ => .refl _
    | cons c cs ih =>
      intro start hcs hout
      obtain ⟨hc, hcs⟩ := List.nodup_cons.1 hcs
      rw [List.foldl_cons, named, List.filter_cons]
      by_cases hempty : c.address = []
      · simp only [hempty, ne_eq, not_true_eq_false, decide_false,
          Bool.false_eq_true, if_false, if_true]
        exact ih start hcs fun d hd => hout d (List.mem_cons_of_mem _ hd)
      · simp only [hempty, ne_eq, not_false_eq_true, decide_true,
          if_true, if_false, List.map_cons, List.cons_append]
        refine (ih _ hcs fun d hd hin => ?_).trans ?_
        · rcases (AList.mem_insert _).1 hin with heq | hin
          · exact hc (heq ▸ List.mem_map_of_mem hd)
          · exact hout d (List.mem_cons_of_mem _ hd) hin
        · rw [AList.entries_insert_of_notMem (hout c List.mem_cons_self)]
          exact List.perm_middle
  simpa [indexOf] using hloop candidates ∅ hnodup fun c _ h => by cases h

theorem mem_indexOf (hnodup : (candidates.map Candidate.address).Nodup) :
    a ∈ indexOf candidates ↔ ∃ c ∈ named candidates, c.address = a := by
  rw [AList.mem_keys, AList.keys, List.keys,
    ((indexOf_entries hnodup).map Sigma.fst).mem_iff, List.map_map]
  exact List.mem_map

theorem nil_notMem_indexOf
    (hnodup : (candidates.map Candidate.address).Nodup) :
    [] ∉ indexOf candidates := by
  rw [mem_indexOf hnodup]
  rintro ⟨c, hc, hempty⟩
  exact of_decide_eq_true (List.mem_filter.1 hc).2 hempty

/-- The stakes the first loop ends with. -/
def tally (candidates : List (Candidate ρ)) (votes : List Vote)
    (address : Bytes) : UInt64 :=
  if address ∈ indexOf candidates then
    UInt64.ofNat (votesFor votes address)
  else 0

variable {c : Candidate ρ}

theorem tally_address (hnodup : (candidates.map Candidate.address).Nodup)
    (hc : c ∈ named candidates) (votes : List Vote) :
    tally candidates votes c.address =
      UInt64.ofNat (votesFor votes c.address) :=
  if_pos ((mem_indexOf hnodup).2 ⟨c, hc, rfl⟩)

theorem tally_eq_ok (hnodup : (candidates.map Candidate.address).Nodup)
    {m : Bytes → UInt64} :
    votes.foldlM (countVote (indexOf candidates)) (fun _ => 0) = .ok m ↔
      (∀ c ∈ named candidates, votesFor votes c.address < 2 ^ 64) ∧
        m = tally candidates votes := by
  have hin : ∀ c ∈ named candidates, c.address ∈ indexOf candidates :=
    fun c hc => (mem_indexOf hnodup).2 ⟨c, hc, rfl⟩
  simp only [countVotes_eq_ok (nil_notMem_indexOf hnodup),
    UInt64.toNat_zero, Nat.zero_add]
  constructor
  · rintro ⟨hfits, hm⟩
    refine ⟨fun c hc => sum_counted (hin c hc) votes ▸ hfits c.address,
      funext fun a => UInt64.toNat_inj.1 ?_⟩
    have hlt := hfits a
    rw [hm a, tally]
    split
    case isTrue ha =>
      rw [sum_counted ha] at hlt ⊢
      rw [UInt64.toNat_ofNat', Nat.mod_eq_of_lt hlt]
    case isFalse ha => exact sum_counted_of_notMem ha votes
  · rintro ⟨hfits, rfl⟩
    have hall : ∀ a, (votes.map (counted (indexOf candidates) · a)).sum <
        2 ^ 64 ∧ (tally candidates votes a).toNat =
          (votes.map (counted (indexOf candidates) · a)).sum := by
      intro a
      by_cases ha : a ∈ indexOf candidates
      · obtain ⟨c, hc, rfl⟩ := (mem_indexOf hnodup).1 ha
        rw [sum_counted ha, tally_address hnodup hc, UInt64.toNat_ofNat',
          Nat.mod_eq_of_lt (hfits c hc)]
        exact ⟨hfits c hc, rfl⟩
      · rw [sum_counted_of_notMem ha, tally, if_neg ha]
        exact ⟨by omega, rfl⟩
    exact ⟨fun a => (hall a).1, fun a => (hall a).2⟩

-- ==== the result

/-- The candidates that stand: they have an address and are eligible. -/
def contenders (cfg : ElectionConfig) (candidates : List (Candidate ρ)) :
    List (Candidate ρ) :=
  (named candidates).filter fun c => Eligible cfg c

/-- A candidate with its votes. -/
def standing (votes : List Vote) (c : Candidate ρ) : Validator ρ :=
  c.validator (UInt64.ofNat (votesFor votes c.address))

theorem contenders_sublist (cfg : ElectionConfig)
    (candidates : List (Candidate ρ)) :
    (contenders cfg candidates).Sublist candidates :=
  List.filter_sublist.trans List.filter_sublist

theorem nodup_standing (hnodup : (candidates.map Candidate.address).Nodup)
    (cfg : ElectionConfig) (votes : List Vote) :
    (((contenders cfg candidates).map (standing votes)).map
      Validator.address).Nodup := by
  rw [List.map_map]
  exact hnodup.sublist ((contenders_sublist cfg candidates).map _)

/-- The second loop, whatever the order of the map. -/
theorem contenders_eq_ok (order : MapOrder)
    (hnodup : (candidates.map Candidate.address).Nodup)
    (hvotes : ∀ c ∈ named candidates, votesFor votes c.address < 2 ^ 64) :
    (∀ out, (order.reorder 0 (indexOf candidates)).entries.foldlM
        (addCandidate cfg (tally candidates votes)) [] = .ok out →
      (∀ c ∈ contenders cfg candidates,
        c.selfStake.toNat + votesFor votes c.address < 2 ^ 64) ∧
      out.Perm ((contenders cfg candidates).map (standing votes))) ∧
    ((∀ c ∈ contenders cfg candidates,
        c.selfStake.toNat + votesFor votes c.address < 2 ^ 64) →
      ∃ out, (order.reorder 0 (indexOf candidates)).entries.foldlM
        (addCandidate cfg (tally candidates votes)) [] = .ok out) := by
  have hperm := (order.entries_reorder 0 (indexOf candidates)).trans
    (indexOf_entries hnodup)
  have hpower : ∀ c ∈ named candidates,
      (tally candidates votes c.address).toNat =
        votesFor votes c.address := by
    intro c hc
    rw [tally_address hnodup hc, UInt64.toNat_ofNat',
      Nat.mod_eq_of_lt (hvotes c hc)]
  have hfits : (∀ e ∈ (order.reorder 0 (indexOf candidates)).entries,
      Eligible cfg e.2 → e.2.selfStake.toNat +
        (tally candidates votes e.1).toNat < 2 ^ 64) ↔
      ∀ c ∈ contenders cfg candidates,
        c.selfStake.toNat + votesFor votes c.address < 2 ^ 64 := by
    constructor
    · intro h c hc
      obtain ⟨hnamed, hok⟩ := List.mem_filter.1 hc
      have h := h ⟨c.address, c⟩
        (hperm.mem_iff.2 (List.mem_map_of_mem hnamed))
        (of_decide_eq_true hok)
      rwa [hpower c hnamed] at h
    · intro h e he hok
      obtain ⟨c, hc, rfl⟩ := List.mem_map.1 (hperm.mem_iff.1 he)
      rw [hpower c hc]
      exact h c (List.mem_filter.2 ⟨hc, decide_eq_true hok⟩)
  have hmap : ((order.reorder 0 (indexOf candidates)).entries.filter
      fun e => Eligible cfg e.2).map
        (fun e => e.2.validator (tally candidates votes e.1)) |>.Perm
      ((contenders cfg candidates).map (standing votes)) := by
    refine ((hperm.filter _).map _).trans (.of_eq ?_)
    rw [List.filter_map, List.map_map]
    refine List.map_congr_left fun c hc => ?_
    exact congrArg c.validator
      (tally_address hnodup (List.mem_filter.1 hc).1 votes)
  refine ⟨fun out h => ?_, fun h => ⟨_, addCandidates_eq_ok.2
    ⟨hfits.2 h, rfl⟩⟩⟩
  obtain ⟨hall, rfl⟩ := addCandidates_eq_ok.1 h
  exact ⟨hfits.1 hall, by simpa using hmap⟩

variable [LinearOrder ρ]

/-- What an election has to return, and when. -/
structure Elected (cfg : ElectionConfig) (candidates : List (Candidate ρ))
    (votes : List Vote) (vs : List (Validator ρ)) : Prop where
  votes_lt : ∀ c ∈ named candidates, votesFor votes c.address < 2 ^ 64
  power_lt : ∀ c ∈ contenders cfg candidates,
    c.selfStake.toNat + votesFor votes c.address < 2 ^ 64
  first : ∃ sorted : List (Validator ρ),
    sorted.Perm ((contenders cfg candidates).map (standing votes)) ∧
    sorted.Pairwise Validator.Before ∧
    vs = ranked (sorted.take cfg.maxValidators.toNat)
  total_lt : totalPower vs < 2 ^ 64

variable {vs : List (Validator ρ)}

theorem elect_iff (order : MapOrder)
    (sort : Sorting (Validator.Before (ρ := ρ))) (config : ElectionConfig)
    (hnodup : (candidates.map Candidate.address).Nodup) :
    electValidators order sort config candidates votes = .ok vs ↔
      Elected (normalizeElectionConfig config) candidates votes vs := by
  simp only [electValidators, ok_iff, tally_eq_ok hnodup]
  constructor
  · rintro ⟨_, ⟨hvotes, rfl⟩, out, hout, total, htotal, rfl⟩
    obtain ⟨hpower, hperm⟩ :=
      (contenders_eq_ok order hnodup hvotes).1 out hout
    have hout : (out.map Validator.address).Nodup :=
      (hperm.map _).nodup_iff.2 (nodup_standing hnodup _ votes)
    have hlt := addPowers_eq_ok.1 ⟨total, htotal⟩
    rw [UInt64.toNat_zero, Nat.zero_add] at hlt
    exact ⟨hvotes, hpower, ⟨sort.run out, (sort.perm out).trans hperm,
      sorted_run sort hout, rfl⟩, (totalPower_ranked _).trans_lt hlt⟩
  · rintro ⟨hvotes, hpower, ⟨sorted, hperm, hsorted, rfl⟩, hlt⟩
    obtain ⟨hall, hex⟩ := contenders_eq_ok order hnodup hvotes
    obtain ⟨out, hout⟩ := hex hpower
    obtain ⟨_, hout'⟩ := hall out hout
    have hrun : sort.run out = sorted := run_eq_of_sorted sort
      ((hout'.map _).nodup_iff.2 (nodup_standing hnodup _ votes))
      (hperm.trans hout'.symm) hsorted
    rw [totalPower_ranked] at hlt
    obtain ⟨total, htotal⟩ := addPowers_eq_ok.2
      (show (0 : UInt64).toNat + _ < 2 ^ 64 by
        rwa [UInt64.toNat_zero, Nat.zero_add])
    refine ⟨_, ⟨hvotes, rfl⟩, out, hout, total, ?_, ?_⟩
    · rw [hrun]
      exact htotal
    · rw [hrun]

variable {votes' : List Vote}

theorem votesFor_perm (h : votes'.Perm votes) (a : Bytes) :
    votesFor votes' a = votesFor votes a :=
  ((h.filter _).map _).sum_eq

/-- Nothing in the result depends on the order of its inputs. -/
theorem Elected.of_perm {candidates' : List (Candidate ρ)}
    (h : Elected cfg candidates votes vs)
    (hc : candidates'.Perm candidates) (hv : votes'.Perm votes) :
    Elected cfg candidates' votes' vs := by
  have hnamed : (named candidates').Perm (named candidates) := hc.filter _
  have hcontenders : (contenders cfg candidates').Perm
      (contenders cfg candidates) := hnamed.filter _
  have hstanding : standing (ρ := ρ) votes' = standing votes :=
    funext fun c => by rw [standing, standing, votesFor_perm hv]
  obtain ⟨sorted, hperm, hsorted, hvs⟩ := h.first
  refine ⟨fun c hc => ?_, fun c hc => ?_, ⟨sorted, ?_, hsorted, hvs⟩,
    h.total_lt⟩
  · rw [votesFor_perm hv]
    exact h.votes_lt c (hnamed.mem_iff.1 hc)
  · rw [votesFor_perm hv]
    exact h.power_lt c (hcontenders.mem_iff.1 hc)
  · rw [hstanding]
    exact hperm.trans (hcontenders.map _).symm

/-- There is one error, so the successes settle an outcome. -/
theorem outcome_ext {α : Type} {x y : Except ElectionError α}
    (h : ∀ a, x = .ok a ↔ y = .ok a) : x = y := by
  cases x with
  | ok a => exact ((h a).1 rfl).symm
  | error e =>
    cases y with
    | ok b => exact (h b).2 rfl
    | error e' =>
      cases e
      cases e'
      rfl

/-- The order of the candidates, of the votes and of the map, and what
the sort does with equal elements, do not matter. -/
theorem elect_perm {order order' : MapOrder}
    {sort sort' : Sorting (Validator.Before (ρ := ρ))}
    (config : ElectionConfig) {candidates' : List (Candidate ρ)}
    (hnodup : (candidates.map Candidate.address).Nodup)
    (hc : candidates'.Perm candidates) (hv : votes'.Perm votes) :
    electValidators order' sort' config candidates' votes' =
      electValidators order sort config candidates votes := by
  have hnodup' : (candidates'.map Candidate.address).Nodup :=
    (hc.map _).nodup_iff.2 hnodup
  refine outcome_ext fun vs => ?_
  rw [elect_iff order' sort' config hnodup', elect_iff order sort config hnodup]
  exact ⟨fun h => h.of_perm hc.symm hv.symm, fun h => h.of_perm hc hv⟩

-- ==== places

/-- A candidate that stands has its exact power. -/
theorem Elected.power (h : Elected cfg candidates votes vs)
    (hc : c ∈ contenders cfg candidates) :
    (standing votes c).votingPower.toNat =
      c.selfStake.toNat + votesFor votes c.address := by
  have hlt := h.power_lt c hc
  have hvotes : (UInt64.ofNat (votesFor votes c.address)).toNat =
      votesFor votes c.address := by
    rw [UInt64.toNat_ofNat',
      Nat.mod_eq_of_lt (h.votes_lt c (List.mem_filter.1 hc).1)]
  show (c.selfStake + _).toNat = _
  rw [toNat_add_of_fits (not_overflows_iff.2 (by rwa [hvotes])), hvotes]

omit [LinearOrder ρ] in
theorem getElem_ranked {xs : List (Validator ρ)} {n i : Nat}
    {v : Validator ρ} (h : (ranked (xs.take n))[i]? = some v) :
    i < n ∧ ∃ w, xs[i]? = some w ∧ v = { w with rank := i + 1 } := by
  rw [ranked, List.getElem?_mapIdx, Option.map_eq_some_iff] at h
  obtain ⟨w, hw, rfl⟩ := h
  rw [List.getElem?_take] at hw
  split at hw
  case isTrue hi => exact ⟨hi, w, hw, rfl⟩
  case isFalse => cases hw

/-- The place of a candidate is the number of candidates before it. -/
theorem place_eq {sorted : List (Validator ρ)}
    (hperm : sorted.Perm ((contenders cfg candidates).map (standing votes)))
    (hsorted : sorted.Pairwise Validator.Before) {i : Nat}
    (hi : sorted[i]? = some (standing votes c)) :
    (contenders cfg candidates).countP
      (fun d => (standing votes d).key < (standing votes c).key) = i := by
  rw [← countP_lt_of_sorted (hsorted.imp before_iff.1) hi,
    hperm.countP_eq, List.countP_map]
  rfl

/-- Votes for a candidate move it forward. -/
theorem key_le_of_votes {vs' : List (Validator ρ)}
    (h : Elected cfg candidates votes vs)
    (h' : Elected cfg candidates votes' vs')
    (hc : c ∈ contenders cfg candidates)
    (hmore : votesFor votes c.address ≤ votesFor votes' c.address) :
    (standing votes' c).key ≤ (standing votes c).key := by
  have hpower : (standing votes c).votingPower.toNat ≤
      (standing votes' c).votingPower.toNat := by
    rw [h.power hc, h'.power hc]
    exact Nat.add_le_add_left hmore _
  refine Prod.Lex.toLex_le_toLex.2 ?_
  rcases Nat.lt_or_eq_of_le hpower with hlt | heq
  · exact .inl (OrderDual.toDual_lt_toDual.2 hlt)
  · exact .inr ⟨congrArg OrderDual.toDual heq.symm, le_rfl⟩

theorem votesFor_append_of_ne {extra : List Vote} {b : Bytes}
    (hextra : ∀ vote ∈ extra, vote.candidate = a) (hne : b ≠ a)
    (votes : List Vote) :
    votesFor (votes ++ extra) b = votesFor votes b := by
  have hnone : extra.filter (fun v => v.candidate = b) = [] := by
    refine List.filter_eq_nil_iff.2 fun v hv => ?_
    rw [decide_eq_true_iff, hextra v hv]
    exact hne.symm
  rw [votesFor, List.filter_append, hnone, List.append_nil]
  rfl

theorem votesFor_le_append (votes extra : List Vote) (a : Bytes) :
    votesFor votes a ≤ votesFor (votes ++ extra) a := by
  rw [votesFor, votesFor, List.filter_append, List.map_append,
    List.sum_append]
  exact Nat.le_add_right _ _

/-- More votes for a candidate that was elected keep it elected, at its
place or before. -/
theorem Elected.monotone {extra : List Vote} {vs' : List (Validator ρ)}
    (hnodup : (candidates.map Candidate.address).Nodup)
    (h : Elected cfg candidates votes vs) {v : Validator ρ} (hv : v ∈ vs)
    (hextra : ∀ vote ∈ extra, vote.candidate = v.address)
    (h' : Elected cfg candidates (votes ++ extra) vs') :
    ∃ v' ∈ vs', v'.address = v.address ∧ v'.rank ≤ v.rank := by
  obtain ⟨sorted, hperm, hsorted, rfl⟩ := h.first
  obtain ⟨sorted', hperm', hsorted', rfl⟩ := h'.first
  obtain ⟨i, hi⟩ := List.mem_iff_getElem?.1 hv
  obtain ⟨hlt, w, hw, rfl⟩ := getElem_ranked hi
  obtain ⟨c, hc, rfl⟩ :=
    List.mem_map.1 (hperm.mem_iff.1 (List.mem_of_getElem? hw))
  obtain ⟨j, hj⟩ := List.mem_iff_getElem?.1
    (hperm'.mem_iff.2 (List.mem_map_of_mem hc))
  have hplace : j ≤ i := by
    rw [← place_eq hperm hsorted hw, ← place_eq hperm' hsorted' hj]
    refine List.countP_mono_left fun d hd hbefore => ?_
    rw [decide_eq_true_iff] at hbefore ⊢
    -- the others have the votes they had, and the key to pass is smaller
    have hne : d.address ≠ c.address := by
      intro heq
      obtain rfl := List.inj_on_of_nodup_map hnodup
        ((contenders_sublist cfg candidates).subset hd)
        ((contenders_sublist cfg candidates).subset hc) heq
      exact lt_irrefl _ hbefore
    rw [standing, votesFor_append_of_ne hextra hne] at hbefore
    exact hbefore.trans_le
      (key_le_of_votes h h' hc (votesFor_le_append votes extra _))
  refine ⟨{ standing (votes ++ extra) c with rank := j + 1 }, ?_, rfl,
    Nat.succ_le_succ hplace⟩
  refine List.mem_iff_getElem?.2 ⟨j, ?_⟩
  rw [ranked, List.getElem?_mapIdx, List.getElem?_take,
    if_pos (Nat.lt_of_le_of_lt hplace hlt), hj]
  rfl

/-- The elected set, in terms of the candidates and the votes alone. -/
theorem election_exact (config : ElectionConfig)
    (candidates : List (Candidate ρ)) (votes : List Vote)
    (hnodup : (candidates.map Candidate.address).Nodup) :
    -- the outcome does not depend on any order
    (∀ (order order' : MapOrder)
      (sort sort' : Sorting (Validator.Before (ρ := ρ)))
      (candidates' : List (Candidate ρ)) (votes' : List Vote),
      candidates'.Perm candidates → votes'.Perm votes →
      electValidators order' sort' config candidates' votes' =
        electValidators order sort config candidates votes) ∧
    ∀ (order : MapOrder) (sort : Sorting (Validator.Before (ρ := ρ)))
      (vs : List (Validator ρ)),
      electValidators order sort config candidates votes = .ok vs →
      let cfg := normalizeElectionConfig config
      -- every power is the exact sum
      (∀ c ∈ contenders cfg candidates,
        (standing votes c).votingPower.toNat =
          c.selfStake.toNat + votesFor votes c.address) ∧
      -- the first of the eligible candidates, in order
      (∃ sorted : List (Validator ρ),
        sorted.Perm ((contenders cfg candidates).map (standing votes)) ∧
        sorted.Pairwise Validator.Before ∧
        vs.length = min cfg.maxValidators.toNat sorted.length ∧
        ∀ (i : Nat) (v : Validator ρ), vs[i]? = some v →
          ∃ w, sorted[i]? = some w ∧ v = { w with rank := i + 1 }) ∧
      (vs.map fun v => v.votingPower.toNat).sum < 2 ^ 64 ∧
      -- more votes for a member
      ∀ v ∈ vs, ∀ extra : List Vote,
        (∀ vote ∈ extra, vote.candidate = v.address) →
        ∀ (order' : MapOrder)
          (sort' : Sorting (Validator.Before (ρ := ρ)))
          (votes' : List Vote) (vs' : List (Validator ρ)),
        votes'.Perm (votes ++ extra) →
        electValidators order' sort' config candidates votes' = .ok vs' →
        ∃ v' ∈ vs', v'.address = v.address ∧ v'.rank ≤ v.rank := by
  refine ⟨fun _ _ _ _ _ _ hc hv => elect_perm config hnodup hc hv,
    fun order sort vs hvs => ?_⟩
  have h := (elect_iff order sort config hnodup).1 hvs
  refine ⟨fun c hc => h.power hc, ?_, h.total_lt, ?_⟩
  · obtain ⟨sorted, hperm, hsorted, rfl⟩ := h.first
    refine ⟨sorted, hperm, hsorted, by simp [ranked], fun i v hi => ?_⟩
    exact (getElem_ranked hi).2
  · intro v hv extra hextra order' sort' votes' vs' hperm hvs'
    have h' := (elect_iff order' sort' config hnodup).1 hvs'
    exact h.monotone hnodup hv hextra (h'.of_perm (.refl _) hperm.symm)

/-- A sort, for the sample. -/
def insertion : Sorting (Validator.Before (ρ := ρ)) where
  run xs := xs.insertionSort fun v w => ¬ w.Before v
  perm xs := List.perm_insertionSort _ xs
  sorted xs := by
    have : Std.Total fun v w : Validator ρ => ¬ w.Before v := ⟨fun v w => by
      rw [before_iff, before_iff, not_lt, not_lt]
      exact le_total _ _⟩
    have : IsTrans (Validator ρ) fun v w => ¬ w.Before v := ⟨by
      intro u v w
      rw [before_iff, before_iff, before_iff, not_lt, not_lt, not_lt]
      exact le_trans⟩
    exact List.pairwise_insertionSort _ xs

/-- Two candidates for one seat. -/
def sampleCandidates : List (Candidate ℕ) :=
  [⟨[1], 20000, 5, 0⟩, ⟨[2], 15000, 5, 0⟩]

/-- The second is elected by a vote, and one more keeps it elected. -/
theorem election_exact_two :
    (sampleCandidates.map Candidate.address).Nodup ∧
    electValidators .stored insertion ⟨1, 0, 0⟩ sampleCandidates
      [⟨[9], [2], 7000⟩] = .ok [⟨1, [2], 22000, 15000, 7000, 5⟩] ∧
    ∀ (order : MapOrder) (sort : Sorting Validator.Before)
      (vs : List (Validator ℕ)),
      electValidators order sort ⟨1, 0, 0⟩ sampleCandidates
        [⟨[8], [2], 1⟩, ⟨[9], [2], 7000⟩] = .ok vs →
      ∃ v ∈ vs, v.address = [2] ∧ v.rank ≤ 1 := by
  have hnodup : (sampleCandidates.map Candidate.address).Nodup := by decide
  have helect : electValidators .stored insertion ⟨1, 0, 0⟩ sampleCandidates
      [⟨[9], [2], 7000⟩] = .ok [⟨1, [2], 22000, 15000, 7000, 5⟩] := by rfl
  obtain ⟨_, _, _, hmore⟩ := (election_exact ⟨1, 0, 0⟩ sampleCandidates
    [⟨[9], [2], 7000⟩] hnodup).2 _ _ _ helect
  refine ⟨hnodup, helect, fun order sort vs hvs => ?_⟩
  exact hmore _ List.mem_cons_self [⟨[8], [2], 1⟩]
    (List.forall_mem_singleton.2 rfl) order sort _ vs (.swap ..) hvs

end ZephyrChain.DPoS
