/-
How a settlement splits what is locked in a job.

# Adding up maps

`amounts[id] += value` wraps in 64 bits. `owedTo` is what a row of
entries holds for an account as a natural number; a loop whose accounts
all stay below 2^64 collects exactly that (`collects_foldl`).

# The split

A strict majority of the results names one root. The providers that
reported it are paid and get their collateral back, the collateral of
the others goes to the owner. `Splits` says so with lists of
assignments; settling by agreement and by majority both give it
(`splits_finalize`, `splits_resolve`), the first with nobody slashed.
-/
import ZephyrChain.Compute.Proofs.Codec
import ZephyrChain.Compute.Proofs.Market
import ZephyrChain.Execution.Proofs.MapOrder

namespace ZephyrChain

open Lib

-- ==== amounts

namespace Amounts

/-- What the accounts of a map hold together. -/
def total (m : Amounts) : Nat := (m.entries.map fun e => e.2.toNat).sum

theorem get_add (m : Amounts) (id : AccountID) (value : UInt64)
    (k : AccountID) :
    (m.add id value).get k =
      if k = id then m.get id + value else m.get k := by
  by_cases hk : k = id
  · subst hk
    rw [if_pos rfl, add, get, AList.lookup_insert]
    rfl
  · rw [if_neg hk, add, get, AList.lookup_insert_ne hk]
    rfl

variable {m : Amounts} {id : AccountID}

theorem mem_add {value : UInt64} {k : AccountID} :
    k ∈ m.add id value ↔ k = id ∨ k ∈ m :=
  AList.mem_insert m

theorem get_of_not_mem (h : id ∉ m) : m.get id = 0 := by
  rw [get, AList.lookup_eq_none.2 h]
  rfl

theorem lookup_of_mem (h : id ∈ m) : m.lookup id = some (m.get id) := by
  obtain ⟨v, hv⟩ := Option.isSome_iff_exists.1 (AList.lookup_isSome.2 h)
  rw [get, hv]
  rfl

theorem sum_kerase (id : AccountID)
    (entries : List (Σ _ : AccountID, UInt64)) :
    ((entries.kerase id).map fun e => e.2.toNat).sum +
        ((entries.dlookup id).getD 0).toNat =
      (entries.map fun e => e.2.toNat).sum := by
  induction entries with
  | nil => rfl
  | cons e entries ih =>
    by_cases he : id = e.1
    · subst he
      rw [List.kerase_cons_eq rfl, List.dlookup_cons_eq, List.map_cons,
        List.sum_cons, Nat.add_comm]
      rfl
    · rw [List.kerase_cons_ne he, List.dlookup_cons_ne _ _ he,
        List.map_cons, List.sum_cons, List.map_cons, List.sum_cons, ← ih,
        Nat.add_assoc]

theorem total_add {value : UInt64}
    (h : (m.get id).toNat + value.toNat < 2 ^ 64) :
    (m.add id value).total = m.total + value.toNat := by
  have herase := sum_kerase id m.entries
  show (((m.insert id _).entries).map _).sum = _
  rw [AList.entries_insert, List.map_cons, List.sum_cons,
    UInt64.toNat_add, Nat.mod_eq_of_lt h]
  have hget : ((m.entries.dlookup id).getD 0).toNat = (m.get id).toNat := rfl
  rw [total]
  omega

end Amounts

section Collecting

variable {α : Type} (key : α → AccountID) (value : α → UInt64)

/-- What a row of entries holds for an account. -/
def owedTo (xs : List α) (id : AccountID) : Nat :=
  (xs.map fun a => if key a = id then (value a).toNat else 0).sum

/-- The map after the entries of a row were added to it. -/
structure Collects (xs : List α) (m m' : Amounts) : Prop where
  get : ∀ id, (m'.get id).toNat = (m.get id).toNat + owedTo key value xs id
  total : m'.total = m.total + (xs.map fun a => (value a).toNat).sum
  mem : ∀ id, id ∈ m' ↔ id ∈ m ∨ ∃ a ∈ xs, key a = id

variable {key value} {xs : List α} {m : Amounts}

theorem fits_add {a : α}
    (h : ∀ id, (m.get id).toNat + owedTo key value (a :: xs) id < 2 ^ 64) :
    (m.get (key a)).toNat + (value a).toNat < 2 ^ 64 ∧
      ∀ id, ((m.add (key a) (value a)).get id).toNat =
        (m.get id).toNat + if key a = id then (value a).toNat else 0 := by
  have hkey := h (key a)
  rw [owedTo, List.map_cons, List.sum_cons, if_pos rfl] at hkey
  have hfits : (m.get (key a)).toNat + (value a).toNat < 2 ^ 64 := by omega
  refine ⟨hfits, fun id => ?_⟩
  by_cases hid : key a = id
  · subst hid
    rw [Amounts.get_add, if_pos rfl, if_pos rfl, UInt64.toNat_add,
      Nat.mod_eq_of_lt hfits]
  · rw [Amounts.get_add, if_neg (Ne.symm hid), if_neg hid, Nat.add_zero]

theorem collects_foldl
    (h : ∀ id, (m.get id).toNat + owedTo key value xs id < 2 ^ 64) :
    Collects key value xs m
      (xs.foldl (fun m a => m.add (key a) (value a)) m) := by
  induction xs generalizing m with
  | nil => exact ⟨fun _ => rfl, rfl, fun id => by simp⟩
  | cons a xs ih =>
    obtain ⟨hfits, hget⟩ := fits_add h
    have hrest : ∀ id, ((m.add (key a) (value a)).get id).toNat +
        owedTo key value xs id < 2 ^ 64 := by
      intro id
      have hid := h id
      rw [owedTo, List.map_cons, List.sum_cons] at hid
      rw [hget, owedTo]
      omega
    have hrun := ih hrest
    refine ⟨fun id => ?_, ?_, fun id => ?_⟩
    · rw [List.foldl_cons, hrun.get, hget, owedTo, owedTo, List.map_cons,
        List.sum_cons, Nat.add_assoc]
    · rw [List.foldl_cons, hrun.total, Amounts.total_add hfits,
        List.map_cons, List.sum_cons, Nat.add_assoc]
    · rw [List.foldl_cons, hrun.mem, Amounts.mem_add]
      simp only [List.mem_cons, exists_eq_or_imp]
      constructor
      · rintro ((rfl | hm) | hxs)
        · exact .inr (.inl rfl)
        · exact .inl hm
        · exact .inr (.inr hxs)
      · rintro (hm | rfl | hxs)
        · exact .inl (.inr hm)
        · exact .inl (.inl rfl)
        · exact .inr hxs

/-- The loop that checks each addition does the same. -/
theorem foldlM_addChecked
    (h : ∀ id, (m.get id).toNat + owedTo key value xs id < 2 ^ 64) :
    xs.foldlM (fun (m : Amounts) a => do
        refuse (Overflows (m.get (key a)) (value a)) Error.overflow
        return m.add (key a) (value a)) m =
      .ok (xs.foldl (fun m a => m.add (key a) (value a)) m) := by
  induction xs generalizing m with
  | nil => rfl
  | cons a xs ih =>
    obtain ⟨hfits, hget⟩ := fits_add h
    have hok := not_overflows_iff.2 hfits
    rw [List.foldlM_cons, refuse_of_not _ hok, ok_bind]
    refine ih fun id => ?_
    have hid := h id
    rw [owedTo, List.map_cons, List.sum_cons] at hid
    rw [hget, owedTo]
    omega

theorem owedTo_of_not_mem {id : AccountID} (h : ∀ a ∈ xs, key a ≠ id) :
    owedTo key value xs id = 0 := by
  refine List.sum_eq_zero fun n hn => ?_
  obtain ⟨a, ha, rfl⟩ := List.mem_map.1 hn
  exact if_neg (h a ha)

/-- Different accounts hold their own entry. -/
theorem owedTo_of_mem (hnodup : (xs.map key).Nodup) {a : α} (ha : a ∈ xs) :
    owedTo key value xs (key a) = (value a).toNat := by
  induction xs with
  | nil => cases ha
  | cons x xs ih =>
    obtain ⟨hx, hxs⟩ := List.nodup_cons.1 hnodup
    rw [owedTo, List.map_cons, List.sum_cons]
    rcases List.mem_cons.1 ha with rfl | ha
    · have hrest : owedTo key value xs (key a) = 0 :=
        owedTo_of_not_mem fun b hb heq => hx (heq ▸ List.mem_map_of_mem hb)
      rw [if_pos rfl, ← owedTo, hrest, Nat.add_zero]
    · have hne : key x ≠ key a := fun heq =>
        hx (heq ▸ List.mem_map_of_mem ha)
      rw [if_neg hne, Nat.zero_add]
      exact ih hxs ha

theorem owedTo_lt (hnodup : (xs.map key).Nodup) (id : AccountID) :
    owedTo key value xs id < 2 ^ 64 := by
  by_cases h : ∃ a ∈ xs, key a = id
  · obtain ⟨a, ha, rfl⟩ := h
    rw [owedTo_of_mem hnodup ha]
    exact (value a).toNat_lt
  · rw [owedTo_of_not_mem fun a ha heq => h ⟨a, ha, heq⟩]
    decide

/-- The entries of a map hold what the map does. -/
theorem owedTo_entries (m : Amounts) (id : AccountID) :
    owedTo Sigma.fst Sigma.snd m.entries id = (m.get id).toNat := by
  by_cases h : id ∈ m
  · have hmem := AList.mem_lookup_iff.1 (Amounts.lookup_of_mem h)
    exact owedTo_of_mem m.keys_nodup hmem
  · rw [Amounts.get_of_not_mem h, owedTo_of_not_mem]
    · rfl
    · rintro e he rfl
      exact h (List.mem_map_of_mem he)

end Collecting

/-- A map with one amount for each of some assignments. -/
def owed (as : List Assignment) (value : Assignment → UInt64) : Amounts :=
  as.foldl (fun m a => m.add a.provider (value a)) ∅

section Owed

variable {as : List Assignment} {value : Assignment → UInt64}

theorem collects_owed (h : (as.map Assignment.provider).Nodup) :
    Collects Assignment.provider value as ∅ (owed as value) := by
  refine collects_foldl fun id => ?_
  have hlt : owedTo _ value as id < 2 ^ 64 := owedTo_lt h id
  have hempty : ((∅ : Amounts).get id).toNat = 0 := rfl
  omega

theorem mem_owed (h : (as.map Assignment.provider).Nodup)
    {id : AccountID} : id ∈ owed as value ↔ ∃ a ∈ as, a.provider = id := by
  rw [(collects_owed h).mem, or_iff_right (AList.notMem_empty id)]

theorem get_owed (h : (as.map Assignment.provider).Nodup) {a : Assignment}
    (ha : a ∈ as) : (owed as value).get a.provider = value a := by
  rw [← UInt64.toNat_inj, (collects_owed h).get, owedTo_of_mem h ha]
  exact Nat.zero_add _

theorem lookup_owed (h : (as.map Assignment.provider).Nodup)
    {a : Assignment} (ha : a ∈ as) :
    (owed as value).lookup a.provider = some (value a) := by
  rw [Amounts.lookup_of_mem ((mem_owed h).2 ⟨a, ha, rfl⟩), get_owed h ha]

theorem total_owed (h : (as.map Assignment.provider).Nodup) :
    (owed as value).total = (as.map fun a => (value a).toNat).sum := by
  rw [(collects_owed h).total]
  exact Nat.zero_add _

end Owed

-- ==== reports

/-- The provider of an assignment reported a root. -/
def Reported (record : OnChainJob) (root : Hash) (a : Assignment) : Prop :=
  ∃ r ∈ record.results, r.provider = a.provider ∧ r.resultRoot = root

instance (record : OnChainJob) (root : Hash) (a : Assignment) :
    Decidable (Reported record root a) :=
  inferInstanceAs (Decidable (∃ r ∈ record.results, _))

/-- The assignments whose providers reported a root, and the others. -/
def onRoot (record : OnChainJob) (root : Hash) : List Assignment :=
  record.assignments.filter fun a => Reported record root a

def offRoot (record : OnChainJob) (root : Hash) : List Assignment :=
  record.assignments.filter fun a => ¬ Reported record root a

theorem lookup_resultsByProvider {results : List ComputeResult}
    (h : (results.map ComputeResult.provider).Nodup) (id : AccountID) :
    (resultsByProvider results).lookup id =
      results.find? fun r => r.provider = id := by
  have hfold : ∀ (xs : List ComputeResult)
      (m : AList fun _ : AccountID => ComputeResult),
      (xs.map ComputeResult.provider).Nodup →
      (xs.foldl (fun m r => m.insert r.provider r) m).lookup id =
        (xs.find? fun r => r.provider = id).or (m.lookup id) := by
    intro xs
    induction xs with
    | nil => exact fun m _ => rfl
    | cons x xs ih =>
      intro m hnodup
      obtain ⟨hx, hxs⟩ := List.nodup_cons.1 hnodup
      rw [List.foldl_cons, ih _ hxs, List.find?_cons]
      by_cases hid : x.provider = id
      · subst hid
        have hnone : xs.find? (fun r => r.provider = x.provider) =
            none := by
          refine List.find?_eq_none.2 fun r hr heq => hx ?_
          rw [← of_decide_eq_true heq]
          exact List.mem_map_of_mem hr
        rw [hnone, AList.lookup_insert, decide_eq_true rfl]
        rfl
      · rw [AList.lookup_insert_ne (Ne.symm hid), decide_eq_false hid]
  rw [resultsByProvider, hfold results ∅ h, AList.lookup_empty,
    Option.or_none]

/-- The loop over the assignments finds what a provider reported. -/
theorem reportedRoot_eq_iff {record : OnChainJob} {root : Hash}
    (h : (record.results.map ComputeResult.provider).Nodup)
    (hroot : root ≠ Bytes32.zero) (a : Assignment) :
    (((resultsByProvider record.results).lookup a.provider).map
        ComputeResult.resultRoot).getD Bytes32.zero = root ↔
      Reported record root a := by
  rw [lookup_resultsByProvider h]
  cases hfind : record.results.find? fun r => r.provider = a.provider with
  | none =>
    refine iff_of_false (fun heq => hroot heq.symm) ?_
    rintro ⟨r, hr, hprovider, -⟩
    exact List.find?_eq_none.1 hfind r hr (decide_eq_true hprovider)
  | some r =>
    have hmem := List.mem_of_find?_eq_some hfind
    have hprovider := List.find?_some hfind
    have heq : r.provider = a.provider := of_decide_eq_true hprovider
    constructor
    · exact fun hr => ⟨r, hmem, heq, hr⟩
    · rintro ⟨r', hr', heq', rfl⟩
      rw [← List.inj_on_of_nodup_map h hmem hr' (heq.trans heq'.symm)]
      rfl

/-- Everybody assigned has reported when there are as many results as
assignments. -/
theorem exists_result {origin record : OnChainJob}
    (hl : Lifecycle origin record)
    (hlen : record.assignments.length ≤ record.results.length)
    {a : Assignment} (ha : a ∈ record.assignments) :
    ∃ r ∈ record.results, r.provider = a.provider := by
  have hsub : record.results.map ComputeResult.provider ⊆
      record.assignments.map Assignment.provider := by
    intro id hid
    obtain ⟨r, hr, rfl⟩ := List.mem_map.1 hid
    obtain ⟨a, ha, heq⟩ := hl.reported r hr
    exact heq ▸ List.mem_map_of_mem ha
  have hperm := (hl.reporters.subperm hsub).perm_of_length_le
    (by simpa using hlen)
  obtain ⟨r, hr, heq⟩ :=
    List.mem_map.1 (hperm.mem_iff.2 (List.mem_map_of_mem ha))
  exact ⟨r, hr, heq⟩

end ZephyrChain

namespace ZephyrChain.Execution

open Lib

-- ==== splits

/-- How a settlement divides what is locked in a job. -/
structure Splits (record : OnChainJob) (s : OnChainSettlement) : Prop where
  jobID : s.jobID = record.id
  majority : record.results.length <
    reports record.results s.resultRoot * 2
  payments : s.payments =
    owed (onRoot record s.resultRoot) Assignment.price
  collateralReturns : s.collateralReturns =
    owed (onRoot record s.resultRoot) fun _ => record.job.collateralRequired
  slashed : s.slashedCollateral =
    owed (offRoot record s.resultRoot) fun _ => record.job.collateralRequired
  refund : s.refund.toNat + ((onRoot record s.resultRoot).map
    fun a => a.price.toNat).sum = record.escrow.toNat
  slashReward : s.slashReward.toNat = (offRoot record s.resultRoot).length *
    record.job.collateralRequired.toNat

section Splitting

variable {origin record updated : OnChainJob} {s : OnChainSettlement}

/-- The results of a job that is finalized agree. -/
theorem finalizeOnChain_unanimous {evidence : VerificationEvidence}
    (h : finalizeOnChain record evidence = .ok (updated, s)) :
    record.results ≠ [] ∧
      ∀ r ∈ record.results, r.resultRoot = s.resultRoot := by
  simp only [finalizeOnChain, ok_iff, not_or, not_not, Bool.not_eq_false,
    commonResultRootRecord_eq] at h
  obtain ⟨⟨_, hlen⟩, ⟨_, hverified⟩, _, _, _, h⟩ := h
  have hsorted := List.perm_insertionSort
    (fun a b : ComputeResult => Bytes32.Before a.provider b.provider)
    record.results
  generalize record.results.insertionSort (fun a b : ComputeResult =>
    Bytes32.Before a.provider b.provider) = sorted at hsorted hverified h
  cases h
  have hagree : (commonResultRoot sorted).2 = true := by
    by_cases hmode : record.job.verification = .replicated
    · rw [hmode] at hverified
      exact hverified
    · rw [Job.requiredAssignments, if_neg hmode, ← hsorted.length_eq,
        List.length_eq_one_iff] at hlen
      obtain ⟨r, rfl⟩ := hlen
      rw [commonResultRoot_cons]
      rfl
  obtain ⟨hne, hall⟩ := commonResultRoot_agrees.1 hagree
  obtain ⟨r, hr, hcommon⟩ := commonResultRoot_mem hne
  refine ⟨fun hnil => hne ?_, fun r' hr' => ?_⟩
  · rw [hnil] at hsorted
    exact hsorted.eq_nil
  show r'.resultRoot = (commonResultRoot sorted).1
  rw [hcommon]
  exact hall r' (hsorted.mem_iff.2 hr') r hr

variable {root : Hash}

theorem reports_of_unanimous {results : List ComputeResult}
    (h : ∀ r ∈ results, r.resultRoot = root) :
    reports results root = results.length :=
  List.countP_eq_length.2 fun r hr => decide_eq_true (h r hr)

/-- Nobody is off a root that everybody assigned has reported. -/
theorem onRoot_of_unanimous (hl : Lifecycle origin record)
    (hlen : record.assignments.length ≤ record.results.length)
    (h : ∀ r ∈ record.results, r.resultRoot = root) :
    onRoot record root = record.assignments ∧ offRoot record root = [] := by
  have hall : ∀ a ∈ record.assignments, Reported record root a := by
    intro a ha
    obtain ⟨r, hr, heq⟩ := exists_result hl hlen ha
    exact ⟨r, hr, heq, h r hr⟩
  refine ⟨List.filter_eq_self.2 fun a ha => decide_eq_true (hall a ha), ?_⟩
  refine List.filter_eq_nil_iff.2 fun a ha hoff => ?_
  exact of_decide_eq_true hoff (hall a ha)

theorem splits_finalize (hl : Lifecycle origin record)
    {evidence : VerificationEvidence}
    (h : finalizeOnChain record evidence = .ok (updated, s)) :
    Splits record s := by
  obtain ⟨hne, hall⟩ := finalizeOnChain_unanimous h
  simp only [finalizeOnChain, ok_iff, not_or, not_not, UInt64.not_lt] at h
  obtain ⟨⟨_, hlen⟩, _, paid, hpaid, hescrow, h⟩ := h
  have hcount : record.assignments.length ≤ record.results.length :=
    hlen ▸ hl.count
  obtain ⟨hon, hoff⟩ := onRoot_of_unanimous hl hcount hall
  have hsum := sumChecked_eq_ok hpaid
  rw [List.map_map] at hsum
  cases h
  refine ⟨rfl, ?_, ?_, ?_, ?_, ?_, ?_⟩
  · rw [reports_of_unanimous hall]
    have hpos := List.length_pos_iff.2 hne
    omega
  · rw [hon]
    rfl
  · rw [hon]
    rfl
  · rw [hoff]
    rfl
  · have hle := UInt64.le_iff_toNat_le.1 hescrow
    have hsame : (record.assignments.map fun a => a.price.toNat).sum =
        paid.toNat := hsum.symm
    rw [hon, hsame, UInt64.toNat_sub_of_le _ _ hescrow]
    omega
  · rw [hoff]
    exact (Nat.zero_mul _).symm

/-- The majority loop, with the assignments it has gone through. -/
structure MajorityLoop (record : OnChainJob) (root : Hash)
    (pre : List Assignment) (s : MajorityTotals) : Prop where
  paid : s.paid.toNat = ((pre.filter fun a => Reported record root a).map
    fun a => a.price.toNat).sum
  payments : s.payments =
    owed (pre.filter fun a => Reported record root a) Assignment.price
  collateralReturns : s.collateralReturns =
    owed (pre.filter fun a => Reported record root a)
      fun _ => record.job.collateralRequired
  slashed : s.slashed = owed (pre.filter fun a => ¬ Reported record root a)
    fun _ => record.job.collateralRequired
  slashReward : s.slashReward.toNat =
    (pre.filter fun a => ¬ Reported record root a).length *
      record.job.collateralRequired.toNat

theorem owed_concat (as : List Assignment) (value : Assignment → UInt64)
    (a : Assignment) :
    owed (as ++ [a]) value = (owed as value).add a.provider (value a) := by
  rw [owed, List.foldl_append]
  rfl

theorem MajorityLoop.step {pre : List Assignment}
    {totals totals' : MajorityTotals} {a : Assignment}
    (hl : Lifecycle origin record) (hroot : root ≠ Bytes32.zero)
    (hs : MajorityLoop record root pre totals)
    (h : majorityStep record root totals a = .ok totals') :
    MajorityLoop record root (pre ++ [a]) totals' := by
  have hreported := reportedRoot_eq_iff hl.reporters hroot a
  unfold majorityStep at h
  simp only at h
  split at h
  case isTrue hon =>
    have hrep := hreported.1 hon
    simp only [ok_iff] at h
    obtain ⟨hfits, rfl⟩ := h
    have hin : ([a].filter fun a => Reported record root a) = [a] :=
      List.filter_cons_of_pos (decide_eq_true hrep)
    have hout : ([a].filter fun a => ¬ Reported record root a) = [] :=
      List.filter_cons_of_neg (by simpa using hrep)
    refine ⟨?_, ?_, ?_, ?_, ?_⟩
    · show (totals.paid + a.price).toNat = _
      rw [toNat_add_of_fits hfits, hs.paid, List.filter_append, hin]
      simp
    · rw [List.filter_append, hin, owed_concat, ← hs.payments]
    · rw [List.filter_append, hin, owed_concat, ← hs.collateralReturns]
    · rw [List.filter_append, hout, List.append_nil]
      exact hs.slashed
    · rw [List.filter_append, hout, List.append_nil]
      exact hs.slashReward
  case isFalse hoff =>
    have hrep : ¬ Reported record root a := fun h => hoff (hreported.2 h)
    simp only [ok_iff] at h
    obtain ⟨hfits, rfl⟩ := h
    have hin : ([a].filter fun a => Reported record root a) = [] :=
      List.filter_cons_of_neg (by simpa using hrep)
    have hout : ([a].filter fun a => ¬ Reported record root a) = [a] :=
      List.filter_cons_of_pos (decide_eq_true hrep)
    refine ⟨?_, ?_, ?_, ?_, ?_⟩
    · rw [List.filter_append, hin, List.append_nil]
      exact hs.paid
    · rw [List.filter_append, hin, List.append_nil]
      exact hs.payments
    · rw [List.filter_append, hin, List.append_nil]
      exact hs.collateralReturns
    · rw [List.filter_append, hout, owed_concat, ← hs.slashed]
    · show (totals.slashReward + record.job.collateralRequired).toNat = _
      rw [toNat_add_of_fits hfits, hs.slashReward, List.filter_append, hout,
        List.length_append, List.length_singleton, Nat.succ_mul]

theorem majorityLoop_end {totals : MajorityTotals}
    (hl : Lifecycle origin record) (hroot : root ≠ Bytes32.zero)
    (h : record.assignments.foldlM (majorityStep record root)
      ⟨0, 0, ∅, ∅, ∅⟩ = .ok totals) :
    MajorityLoop record root record.assignments totals := by
  refine foldlM_prefix (P := MajorityLoop record root) ?_ ?_ h
  · exact ⟨rfl, rfl, rfl, rfl, (Nat.zero_mul _).symm⟩
  · exact fun pre a totals totals' _ hs hstep => hs.step hl hroot hstep

/-- The root a strict majority reported is that of a result. -/
theorem majority_reported
    (h : record.results.length < reports record.results root * 2) :
    ∃ r ∈ record.results, r.resultRoot = root := by
  have hpos : 0 < reports record.results root := by omega
  obtain ⟨r, hr, hroot⟩ := List.countP_pos_iff.1 hpos
  exact ⟨r, hr, of_decide_eq_true hroot⟩

theorem root_ne_zero (hv : record.validate = .ok ())
    (h : record.results.length < reports record.results root * 2) :
    root ≠ Bytes32.zero := by
  obtain ⟨r, hr, rfl⟩ := majority_reported h
  have hresult := (OnChainJob.validate_eq_ok hv).2.2 r hr
  simp only [ComputeResult.validate, refuse_eq_ok, not_or] at hresult
  exact hresult.2.2.1

theorem splits_resolve (hl : Lifecycle origin record)
    (hv : record.validate = .ok ())
    (h : resolveReplicatedMajority record = .ok (updated, s)) :
    Splits record s := by
  simp only [resolveReplicatedMajority, ok_iff, not_le, UInt64.not_lt] at h
  obtain ⟨_, hmost, totals, hloop, hescrow, h⟩ := h
  have hbest : IsBest record.results (majorityRoot record.results) :=
    isBest_of_perm (.refl _)
  have hcount : (majorityRoot record.results).2 =
      reports record.results (majorityRoot record.results).1 :=
    count_of_mem (hbest.counted.resolve_left (by omega))
  rw [hcount] at hmost
  have hend := majorityLoop_end hl (root_ne_zero hv hmost) hloop
  cases h
  refine ⟨rfl, hmost, hend.payments, hend.collateralReturns, hend.slashed,
    ?_, hend.slashReward⟩
  have hle := UInt64.le_iff_toNat_le.1 hescrow
  have hpaid : ((onRoot record (majorityRoot record.results).1).map
      fun a => a.price.toNat).sum = totals.paid.toNat := hend.paid.symm
  rw [hpaid, UInt64.toNat_sub_of_le _ _ hescrow]
  omega

-- ==== partitions

theorem nodup_onRoot (hl : Lifecycle origin record) (root : Hash) :
    ((onRoot record root).map Assignment.provider).Nodup :=
  hl.providers.sublist (List.filter_sublist.map _)

theorem nodup_offRoot (hl : Lifecycle origin record) (root : Hash) :
    ((offRoot record root).map Assignment.provider).Nodup :=
  hl.providers.sublist (List.filter_sublist.map _)

theorem length_roots (record : OnChainJob) (root : Hash) :
    (onRoot record root).length + (offRoot record root).length =
      record.assignments.length := by
  rw [onRoot, offRoot, ← List.countP_eq_length_filter,
    ← List.countP_eq_length_filter]
  have hsum := List.length_eq_countP_add_countP (l := record.assignments)
    fun a => decide (Reported record root a)
  simpa using hsum.symm

/-- No provider is both on and off a root. -/
theorem not_mem_offRoot (hl : Lifecycle origin record) {a : Assignment}
    (ha : a ∈ onRoot record root) :
    ¬ ∃ b ∈ offRoot record root, b.provider = a.provider := by
  rintro ⟨b, hb, heq⟩
  obtain ⟨ha, hon⟩ := List.mem_filter.1 ha
  obtain ⟨hb, hoff⟩ := List.mem_filter.1 hb
  rw [List.inj_on_of_nodup_map hl.providers hb ha heq] at hoff
  exact of_decide_eq_true hoff (of_decide_eq_true hon)

/-- A settlement that gives away what is locked in a job, once: the
providers on the root of a strict majority get their price and their
collateral, each of the others loses exactly the collateral. -/
structure Partitions (record : OnChainJob) (s : OnChainSettlement) :
    Prop where
  sum : s.payments.total + s.refund.toNat + s.collateralReturns.total +
    s.slashReward.toNat = lockedInJob record
  majority : record.results.length <
    reports record.results s.resultRoot * 2
  paid : ∀ a ∈ record.assignments, Reported record s.resultRoot a →
    s.payments.lookup a.provider = some a.price ∧
      s.collateralReturns.lookup a.provider =
        some record.job.collateralRequired ∧
      a.provider ∉ s.slashedCollateral
  slashed : ∀ a ∈ record.assignments, ¬ Reported record s.resultRoot a →
    s.slashedCollateral.lookup a.provider =
        some record.job.collateralRequired ∧
      a.provider ∉ s.payments ∧ a.provider ∉ s.collateralReturns
  only : ∀ id, id ∈ s.payments ∨ id ∈ s.collateralReturns ∨
    id ∈ s.slashedCollateral → ∃ a ∈ record.assignments, a.provider = id

theorem sum_constant {as : List Assignment} (value : UInt64) :
    (as.map fun _ => value.toNat).sum = as.length * value.toNat := by
  rw [List.map_const', List.sum_replicate_nat]

theorem Splits.sum (hl : Lifecycle origin record) (h : Splits record s) :
    s.payments.total + s.refund.toNat + s.collateralReturns.total +
      s.slashReward.toNat = lockedInJob record := by
  have hon := nodup_onRoot hl s.resultRoot
  have hlen := length_roots record s.resultRoot
  have hrefund := h.refund
  have hlocked : lockedInJob record = record.escrow.toNat +
      ((onRoot record s.resultRoot).length +
        (offRoot record s.resultRoot).length) *
          record.job.collateralRequired.toNat := by
    rw [hlen, lockedInJob]
  rw [h.payments, h.collateralReturns, total_owed hon, total_owed hon,
    sum_constant, h.slashReward, hlocked, Nat.add_mul]
  omega

theorem Splits.partitions (hl : Lifecycle origin record)
    (h : Splits record s) : Partitions record s := by
  have hon := nodup_onRoot hl s.resultRoot
  have hoff := nodup_offRoot hl s.resultRoot
  refine ⟨h.sum hl, h.majority, ?_, ?_, ?_⟩
  · intro a ha hrep
    have hmem : a ∈ onRoot record s.resultRoot :=
      List.mem_filter.2 ⟨ha, decide_eq_true hrep⟩
    rw [h.payments, h.collateralReturns, h.slashed, lookup_owed hon hmem,
      lookup_owed hon hmem, mem_owed hoff]
    exact ⟨rfl, rfl, not_mem_offRoot hl hmem⟩
  · intro a ha hrep
    have hmem : a ∈ offRoot record s.resultRoot :=
      List.mem_filter.2 ⟨ha, decide_eq_true hrep⟩
    have hnot : ¬ ∃ b ∈ onRoot record s.resultRoot,
        b.provider = a.provider := by
      rintro ⟨b, hb, heq⟩
      exact not_mem_offRoot hl hb ⟨a, hmem, heq.symm⟩
    rw [h.payments, h.collateralReturns, h.slashed, lookup_owed hoff hmem,
      mem_owed hon, mem_owed hon]
    exact ⟨rfl, hnot, hnot⟩
  · rw [h.payments, h.collateralReturns, h.slashed]
    intro id
    rw [mem_owed hon, mem_owed hon, mem_owed hoff]
    have hassigned : (∃ a ∈ onRoot record s.resultRoot, a.provider = id) →
        ∃ a ∈ record.assignments, a.provider = id := by
      rintro ⟨a, ha, heq⟩
      exact ⟨a, List.mem_of_mem_filter ha, heq⟩
    rintro (hid | hid | ⟨a, ha, heq⟩)
    · exact hassigned hid
    · exact hassigned hid
    · exact ⟨a, List.mem_of_mem_filter ha, heq⟩

/-- An expired job gives back what is locked in it. -/
theorem expireOnChain_sum (hl : Lifecycle origin record) {height : UInt64}
    {refund : UInt64} {returns : Amounts}
    (h : expireOnChain record height = .ok (updated, refund, returns)) :
    refund = record.escrow ∧ returns = owed record.assignments
        (fun _ => record.job.collateralRequired) ∧
      refund.toNat + returns.total = lockedInJob record := by
  simp only [expireOnChain, ok_iff, Prod.mk.injEq] at h
  obtain ⟨_, _, rfl, rfl⟩ := h
  refine ⟨rfl, rfl, ?_⟩
  show _ + (owed record.assignments _).total = _
  rw [total_owed hl.providers, sum_constant, lockedInJob]

-- ==== both rules

/-- A strict majority is what the search over the map finds. -/
theorem majorityRoot_of_majority {results : List ComputeResult}
    (h : results.length < reports results root * 2) :
    majorityRoot results = (root, reports results root) := by
  have hbest : IsBest results (majorityRoot results) :=
    isBest_of_perm (.refl _)
  have hget := getD_lookup_rootCounts results ∅ root
  rw [AList.lookup_empty, Option.getD_none, Nat.zero_add] at hget
  have hlookup : (rootCounts results).lookup root =
      some (reports results root) := by
    cases hroot : (rootCounts results).lookup root with
    | none =>
      rw [rootCounts] at hroot
      rw [hroot, Option.getD_none] at hget
      omega
    | some n =>
      rw [rootCounts] at hroot
      rw [hroot, Option.getD_some] at hget
      rw [hget]
  have hcounted : IsBest results (root, reports results root) := by
    refine ⟨fun entry hmem => ?_, .inr (AList.mem_lookup_iff.1 hlookup)⟩
    by_contra hmore
    have hcount := count_of_mem hmem
    have heq : root = entry.1 := majority_unique h (by omega)
    rw [heq] at hmore
    omega
  obtain ⟨hcount, hroot⟩ := hbest.unique hcounted
  exact Prod.ext (hroot h) hcount

theorem majorityLoop_of_fits (hl : Lifecycle origin record)
    (hroot : root ≠ Bytes32.zero)
    (hall : ∀ a ∈ record.assignments, Reported record root a) :
    ∃ totals, record.assignments.foldlM (majorityStep record root)
      ⟨0, 0, ∅, ∅, ∅⟩ = .ok totals := by
  have hloop : ∀ (as : List Assignment) (totals : MajorityTotals),
      (∀ a ∈ as, Reported record root a) →
      totals.paid.toNat + (as.map fun a => a.price.toNat).sum < 2 ^ 64 →
      ∃ totals', as.foldlM (majorityStep record root) totals =
        .ok totals' := by
    intro as
    induction as with
    | nil => exact fun totals _ _ => ⟨totals, rfl⟩
    | cons a as ih =>
      intro totals hrep hfits
      rw [List.map_cons, List.sum_cons] at hfits
      have hno : ¬ Overflows totals.paid a.price :=
        not_overflows_iff.2 (by omega)
      have hon := (reportedRoot_eq_iff hl.reporters hroot a).2
        (hrep a List.mem_cons_self)
      rw [List.foldlM_cons, majorityStep]
      simp only [hon, if_true]
      rw [refuse_of_not _ hno, ok_bind]
      refine ih _ (fun b hb => hrep b (List.mem_cons_of_mem a hb)) ?_
      show (totals.paid + a.price).toNat + _ < _
      rw [toNat_add_of_fits hno]
      omega
  refine hloop _ _ hall ?_
  have hle : (record.assignments.map fun a => a.price.toNat).sum ≤
      record.escrow.toNat := hl.escrow
  have hlt := record.escrow.toNat_lt
  rw [UInt64.toNat_zero]
  omega

/-- Three or more results that agree settle the same way under both
rules. -/
theorem both_of_unanimous (hl : Lifecycle origin record)
    (hv : record.validate = .ok ())
    (hstatus : record.status = .awaitingVerification)
    (hmany : 3 ≤ record.results.length)
    (hall : ∀ r ∈ record.results, r.resultRoot = root)
    (evidence : VerificationEvidence) :
    (∃ s, finalizeOnChain record evidence =
      .ok ({ record with status := .settled }, s)) ∧
    ∃ s, resolveReplicatedMajority record =
      .ok ({ record with status := .settled }, s) := by
  have hlive : ¬ record.status.Final := by
    rintro (hs | hs)
    · rw [hstatus] at hs
      cases hs
    · rw [hstatus] at hs
      cases hs
  have hlen := (hl.progress.resolve_left hlive).awaiting.1 hstatus
  have hmode : record.job.verification = .replicated := by
    by_contra hmode
    rw [Job.requiredAssignments, if_neg hmode] at hlen
    omega
  have hcount : record.results.length = record.assignments.length := by
    have hle := Lifecycle.Reports.length_le ⟨hl.reporters, hl.reported⟩
    have hge := hl.count
    omega
  have hmost : record.results.length <
      reports record.results root * 2 := by
    rw [reports_of_unanimous hall]
    omega
  have hroot := root_ne_zero hv hmost
  have hprices : (record.assignments.map fun a => a.price.toNat).sum ≤
      record.escrow.toNat := hl.escrow
  constructor
  · have hsorted := List.perm_insertionSort
      (fun a b : ComputeResult => Bytes32.Before a.provider b.provider)
      record.results
    have hne : record.results.insertionSort (fun a b : ComputeResult =>
        Bytes32.Before a.provider b.provider) ≠ [] := by
      rw [← List.length_pos_iff, hsorted.length_eq]
      omega
    have hsame : ∀ a ∈ record.results.insertionSort
        (fun a b : ComputeResult => Bytes32.Before a.provider b.provider),
        a.resultRoot = root := fun a ha => hall a (hsorted.mem_iff.1 ha)
    have hagree := commonResultRoot_agrees.2 ⟨hne, fun a ha b hb =>
      (hsame a ha).trans (hsame b hb).symm⟩
    obtain ⟨r, hr, hcommon⟩ := commonResultRoot_mem hne
    rw [hsame r hr] at hcommon
    have hfits : ((record.assignments.map Assignment.price).map
        UInt64.toNat).sum < 2 ^ 64 := by
      rw [List.map_map]
      exact Nat.lt_of_le_of_lt hprices record.escrow.toNat_lt
    obtain ⟨paid, hpaid⟩ := sumChecked_of_fits (e := .marketEscrow) hfits
    have hsum := sumChecked_eq_ok hpaid
    rw [List.map_map] at hsum
    have hescrow : ¬ record.escrow < paid := by
      rw [UInt64.lt_iff_toNat_lt, hsum]
      exact Nat.not_lt.2 hprices
    apply Exists.intro
    unfold finalizeOnChain
    simp only [commonResultRootRecord_eq, hcommon, hagree, hmode,
      verificationSatisfied]
    rw [refuse_of_not _ (by simp [hstatus, hlen]), ok_bind,
      refuse_of_not _ (by simpa using hroot), ok_bind, hpaid, ok_bind,
      refuse_of_not _ hescrow]
    rfl
  · have hmajority := majorityRoot_of_majority hmost
    have hreported : ∀ a ∈ record.assignments, Reported record root a := by
      intro a ha
      obtain ⟨r, hr, heq⟩ := exists_result hl hcount.ge ha
      exact ⟨r, hr, heq, hall r hr⟩
    obtain ⟨totals, hloop⟩ := majorityLoop_of_fits hl hroot hreported
    have hend := majorityLoop_end hl hroot hloop
    have hescrow : ¬ record.escrow < totals.paid := by
      have hfilter := List.filter_eq_self.2 fun a ha =>
        decide_eq_true (hreported a ha)
      rw [UInt64.lt_iff_toNat_lt, hend.paid, hfilter]
      exact Nat.not_lt.2 hprices
    apply Exists.intro
    unfold resolveReplicatedMajority
    simp only [hmajority]
    rw [refuse_of_not _ (by simp [hmode, hcount]; omega), ok_bind,
      refuse_of_not _ (Nat.not_le.2 hmost), ok_bind, hloop, ok_bind,
      refuse_of_not _ hescrow]
    rfl

/-- The two rules never disagree on one record. -/
theorem Splits.agree {s' : OnChainSettlement} (h : Splits record s)
    (h' : Splits record s') :
    s'.payments = s.payments ∧ s'.refund = s.refund ∧
      s'.collateralReturns = s.collateralReturns ∧
      s'.resultRoot = s.resultRoot := by
  have hroot := majority_unique h'.majority h.majority
  have hpay := h'.payments
  have hret := h'.collateralReturns
  have hrefund := h'.refund
  rw [hroot] at hpay hret hrefund
  refine ⟨hpay.trans h.payments.symm, ?_,
    hret.trans h.collateralReturns.symm, hroot⟩
  have hsame := h.refund
  rw [← UInt64.toNat_inj]
  omega

end Splitting

end ZephyrChain.Execution
