/-
The coins of a settlement.

# From amounts to coins

The executor merges payments, returned collateral and what the owner
gets into one amount for each account (`settlementAmounts_of_fits`), and
makes one coin for each account in the order of the accounts. A coin of
nothing is refused, so the payout succeeds exactly when no account of
the merged map is owed nothing (`settlementOutputs_iff`).

# Settling and expiring

A settled job pays every account it names a price, so its payout always
goes through and adds up to the locked value
(`settlements_partition_locked_value`). An expired job names its
providers with the collateral alone. When the job asks for none they are
owed nothing, and the job cannot be unwound (`expire_unwinds_iff`).
-/
import ZephyrChain.Execution.Proofs.JobRecords
import ZephyrChain.Execution.Proofs.Settlements

namespace ZephyrChain.Execution

open Lib

variable {C : Crypto} {e : Engine} {t : Transaction}

-- ==== amounts

/-- What an account gets out of a settlement. -/
def share (record : OnChainJob) (s : OnChainSettlement) (id : AccountID) :
    Nat :=
  (s.payments.get id).toNat + (s.collateralReturns.get id).toNat +
    if id = record.job.owner then s.refund.toNat + s.slashReward.toNat else 0

/-- All that a settlement gives away. -/
def given (s : OnChainSettlement) : Nat :=
  s.payments.total + s.refund.toNat + s.collateralReturns.total +
    s.slashReward.toNat

theorem get_le_total (m : Amounts) (id : AccountID) :
    (m.get id).toNat ≤ m.total := by
  rw [← owedTo_entries m id]
  refine List.sum_le_sum fun e _ => ?_
  split
  · exact Nat.le_refl _
  · exact Nat.zero_le _

/-- A map added to another one, entry by entry. -/
theorem collects_entries {m m' : Amounts}
    (h : ∀ id, (m'.get id).toNat + (m.get id).toNat < 2 ^ 64) :
    Collects Sigma.fst Sigma.snd m.entries m'
      (m.entries.foldl (fun m entry => m.add entry.1 entry.2) m') := by
  refine collects_foldl fun id => ?_
  rw [owedTo_entries]
  exact h id

theorem exists_entry {m : Amounts} {id : AccountID} :
    (∃ entry ∈ m.entries, entry.1 = id) ↔ id ∈ m := by
  show _ ↔ id ∈ m.entries.map Sigma.fst
  rw [List.mem_map]

theorem settlementAmounts_of_fits (record : OnChainJob)
    {s : OnChainSettlement} (hfits : given s < 2 ^ 64) :
    ∃ amounts, settlementAmounts record s = .ok amounts ∧
      (∀ id, (amounts.get id).toNat = share record s id) ∧
      amounts.total = given s ∧
      ∀ id, id ∈ amounts ↔ (id ∈ s.payments ∨ id ∈ s.collateralReturns) ∨
        (id = record.job.owner ∧ 0 < s.refund.toNat + s.slashReward.toNat) := by
  rw [given] at hfits
  have hpay := get_le_total s.payments
  have hret := get_le_total s.collateralReturns
  have hempty : ∀ id, ((∅ : Amounts).get id).toNat = 0 := fun _ => rfl
  have hpaid : Collects Sigma.fst Sigma.snd s.payments.entries ∅ _ :=
    collects_entries fun id => by
      have hle := hpay id
      rw [hempty]
      omega
  have hpaidGet : ∀ id, ((s.payments.entries.foldl
      (fun (m : Amounts) entry => m.add entry.1 entry.2) ∅).get id).toNat =
        (s.payments.get id).toNat := by
    intro id
    rw [hpaid.get, hempty, owedTo_entries, Nat.zero_add]
  unfold settlementAmounts
  simp only
  generalize s.payments.entries.foldl
    (fun (m : Amounts) entry => m.add entry.1 entry.2) ∅ = paid
      at hpaid hpaidGet
  have hboth : ∀ id, (paid.get id).toNat +
      (s.collateralReturns.get id).toNat < 2 ^ 64 := by
    intro id
    have hle := hpay id
    have hle' := hret id
    rw [hpaidGet]
    omega
  have hmerged := collects_entries hboth
  rw [foldlM_addChecked fun id => by rw [owedTo_entries]; exact hboth id,
    ok_bind]
  generalize s.collateralReturns.entries.foldl
    (fun (m : Amounts) entry => m.add entry.1 entry.2) paid = merged
      at hmerged
  have hget : ∀ id, (merged.get id).toNat =
      (s.payments.get id).toNat + (s.collateralReturns.get id).toNat := by
    intro id
    rw [hmerged.get, hpaidGet, owedTo_entries]
  have htotal : merged.total =
      s.payments.total + s.collateralReturns.total := by
    rw [hmerged.total, hpaid.total]
    exact congrArg (· + _) (Nat.zero_add _)
  have hmem : ∀ id, id ∈ merged ↔
      id ∈ s.payments ∨ id ∈ s.collateralReturns := by
    intro id
    rw [hmerged.mem, hpaid.mem, exists_entry, exists_entry,
      or_iff_right (AList.notMem_empty id)]
  have hno : ¬ Overflows s.refund s.slashReward :=
    not_overflows_iff.2 (by omega)
  have hsum := toNat_add_of_fits hno
  rw [refuse_of_not _ hno, ok_bind]
  have hpos : 0 < s.refund + s.slashReward ↔
      0 < s.refund.toNat + s.slashReward.toNat := by
    rw [UInt64.lt_iff_toNat_lt, hsum]
    rfl
  by_cases howner : 0 < s.refund + s.slashReward
  · have hfit : (merged.get record.job.owner).toNat +
        (s.refund + s.slashReward).toNat < 2 ^ 64 := by
      have hle := hpay record.job.owner
      have hle' := hret record.job.owner
      rw [hget, hsum]
      omega
    rw [if_pos howner]
    refine ⟨_, rfl, fun id => ?_, ?_, fun id => ?_⟩
    · rw [Amounts.get_add, share]
      by_cases hid : id = record.job.owner
      · subst hid
        rw [if_pos rfl, if_pos rfl, UInt64.toNat_add, Nat.mod_eq_of_lt hfit,
          hget, hsum]
      · rw [if_neg hid, if_neg hid, hget, Nat.add_zero]
    · rw [Amounts.total_add hfit, htotal, hsum, given]
      omega
    · rw [Amounts.mem_add, hmem, and_iff_left (hpos.1 howner), or_comm]
  · rw [if_neg howner]
    have hzero : s.refund.toNat + s.slashReward.toNat = 0 :=
      Nat.eq_zero_of_not_pos fun h => howner (hpos.2 h)
    refine ⟨_, rfl, fun id => ?_, ?_, fun id => ?_⟩
    · rw [hget, share, hzero, ite_self, Nat.add_zero]
    · rw [htotal, given]
      omega
    · rw [hmem, hzero]
      exact (or_iff_left fun h => Nat.lt_irrefl 0 h.2).symm

-- ==== coins

/-- The native coins of an account among new outputs. -/
def Change.paidTo (native : TokenID) (c : Change) (id : AccountID) : Nat :=
  (c.created.map fun o =>
      if o.owner = id then coinAmount native o.payload else 0).sum +
    (c.outbound.map fun m =>
      if m.output.owner = id then coinAmount native m.payload else 0).sum

theorem Change.paidTo_place (native : TokenID) (s : Change)
    (destination : UInt32) (i : Nat) (spec : OutputSpec) (total : UInt64)
    (id : AccountID) :
    ({ s with total }.place C t destination i spec).paidTo native id =
      s.paidTo native id +
        if spec.owner = id then coinAmount native (spec.kind, spec.data)
        else 0 := by
  unfold Change.place Change.paidTo
  split
  · simp only [List.map_append, List.map_singleton, List.sum_append,
      List.sum_singleton]
    rw [Nat.add_right_comm]
    rfl
  · simp only [List.map_append, List.map_singleton, List.sum_append,
      List.sum_singleton]
    rw [Nat.add_assoc]
    rfl

theorem coinAmount_newCoin {native : TokenID} {amount : UInt64}
    (hnative : native ≠ Bytes32.zero) (hamount : amount ≠ 0) :
    coinAmount native (.coin, (Coin.mk native amount 0).marshalBinary) =
      amount.toNat := by
  have hparse := parseCoin_iff (c := ⟨native, amount, 0⟩).2
    ⟨rfl, hamount, hnative⟩
  generalize (Coin.mk native amount 0).marshalBinary = data at hparse ⊢
  rw [coinAmount_of_parse (p := (.coin, data)) rfl hparse, if_pos rfl]

section Paying

variable {amounts : Amounts}

/-- One payment: refused for the zero account and for nothing. -/
theorem payStep_iff (hnative : e.nativeToken ≠ Bytes32.zero)
    (hshards : e.shardCount ≠ 0) {s s' : Change} {id : AccountID} {i : Nat} :
    payStep C e t amounts s (id, i) = .ok s' ↔
      ((s.total.toNat + (amounts.get id).toNat < 2 ^ 64 ∧
        id ≠ Bytes32.zero ∧ amounts.get id ≠ 0) ∧
      s' = { s with total := s.total + amounts.get id }.place C t
        (accountShard id e.shardCount) (computeReceiptIndex.toNat + 1 + i)
        ⟨id, .coin,
          (Coin.mk e.nativeToken (amounts.get id) 0).marshalBinary⟩) := by
  have hvalid : id ≠ Bytes32.zero → (OutputSpec.mk id .coin
      (Coin.mk e.nativeToken (amounts.get id) 0).marshalBinary).validate =
        .ok () := by
    intro hid
    simp [OutputSpec.validate, validateOwnerForKind_eq_ok,
      Coin.marshalBinary, maxObjectDataBytes, hid]
  simp only [payStep, newCoinOutput, newCoinOutputAtHeight,
    Router.shardForAccount, Engine.router, ok_iff, not_or,
    not_overflows_iff]
  constructor
  · rintro ⟨hfits, _, ⟨⟨hid, _, hamount⟩, _, rfl⟩, _, ⟨_, rfl⟩, rfl⟩
    exact ⟨⟨hfits, hid, hamount⟩, rfl⟩
  · rintro ⟨⟨hfits, hid, hamount⟩, rfl⟩
    have hroute : ¬ (e.shardCount = 0 ∨ IsZero32 id) :=
      not_or.2 ⟨hshards, hid⟩
    exact ⟨hfits, _, ⟨⟨hid, hnative, hamount⟩, hvalid hid, rfl⟩, _,
      ⟨refuse_of_not _ hroute, rfl⟩, rfl⟩

/-- What a row of accounts is paid. -/
def paidSum (amounts : Amounts) (ids : List AccountID) : Nat :=
  (ids.map fun id => (amounts.get id).toNat).sum

theorem payAll (hnative : e.nativeToken ≠ Bytes32.zero)
    (hshards : e.shardCount ≠ 0) {ids : List AccountID}
    {n : Nat} {s : Change}
    (hfits : s.total.toNat + paidSum amounts ids < 2 ^ 64) :
    ((∃ c, (ids.zipIdx n).foldlM (payStep C e t amounts) s = .ok c) ↔
      ∀ id ∈ ids, id ≠ Bytes32.zero ∧ amounts.get id ≠ 0) ∧
    ∀ c, (ids.zipIdx n).foldlM (payStep C e t amounts) s = .ok c →
      c.total.toNat = s.total.toNat + paidSum amounts ids ∧
      ∀ account, c.paidTo e.nativeToken account =
        s.paidTo e.nativeToken account +
          owedTo (fun id => id) amounts.get ids account := by
  induction ids generalizing n s with
  | nil =>
    refine ⟨iff_of_true ⟨s, rfl⟩ (fun id hid => by cases hid), ?_⟩
    intro c hc
    obtain rfl := Except.ok.inj hc
    exact ⟨rfl, fun _ => rfl⟩
  | cons id ids ih =>
    rw [paidSum, List.map_cons, List.sum_cons] at hfits
    have hno : ¬ Overflows s.total (amounts.get id) :=
      not_overflows_iff.2 (by omega)
    have hstep : ∀ s', payStep C e t amounts s (id, n) = .ok s' ↔ _ :=
      fun s' => payStep_iff hnative hshards
    rw [List.zipIdx_cons, List.foldlM_cons, List.forall_mem_cons]
    by_cases hgood : id ≠ Bytes32.zero ∧ amounts.get id ≠ 0
    · have hok := (hstep _).2 ⟨⟨not_overflows_iff.1 hno, hgood⟩, rfl⟩
      have htotal : ({ s with total := s.total + amounts.get id }.place C t
          (accountShard id e.shardCount) (computeReceiptIndex.toNat + 1 + n)
          ⟨id, .coin, (Coin.mk e.nativeToken (amounts.get id)
            0).marshalBinary⟩).total.toNat =
            s.total.toNat + (amounts.get id).toNat := by
        rw [Change.total_place, toNat_add_of_fits hno]
      rw [hok, ok_bind, and_iff_right hgood]
      obtain ⟨hiff, hpaid⟩ := @ih (n + 1) _ (by
        rw [htotal, paidSum]
        omega)
      refine ⟨hiff, fun c hc => ?_⟩
      obtain ⟨hsum, hcoins⟩ := hpaid c hc
      refine ⟨?_, fun account => ?_⟩
      · rw [hsum, htotal, paidSum, paidSum, List.map_cons, List.sum_cons,
          Nat.add_assoc]
      · rw [hcoins, Change.paidTo_place, coinAmount_newCoin hnative hgood.2,
          owedTo, owedTo, List.map_cons, List.sum_cons, Nat.add_assoc]
    · have herror : ∀ x, payStep C e t amounts s (id, n) ≠ .ok x :=
        fun x hx => hgood ((hstep x).1 hx).1.2
      cases hx : payStep C e t amounts s (id, n) with
      | ok x => exact absurd hx (herror x)
      | error err =>
        refine ⟨iff_of_false ?_ (fun h => hgood h.1), ?_⟩
        · rintro ⟨c, hc⟩
          cases hc
        · intro c hc
          cases hc

end Paying

theorem paidSum_keys (amounts : Amounts) :
    paidSum amounts (amounts.keys.insertionSort Bytes32.Before) =
      amounts.total := by
  have hperm := (List.perm_insertionSort Bytes32.Before amounts.keys).map
    fun id => (amounts.get id).toNat
  rw [paidSum, hperm.sum_eq]
  show ((amounts.entries.map Sigma.fst).map _).sum = _
  rw [List.map_map]
  refine congrArg List.sum (List.map_congr_left fun entry hentry => ?_)
  have hlookup : amounts.lookup entry.1 = some entry.2 :=
    AList.mem_lookup_iff.2 hentry
  show (amounts.get entry.1).toNat = _
  rw [Amounts.get, hlookup]
  rfl

/-- The payout of a settlement that fits: it succeeds unless an account
is named for nothing, and pays every account its share. -/
theorem settlementOutputs_iff (hnative : e.nativeToken ≠ Bytes32.zero)
    (hshards : e.shardCount ≠ 0) {record : OnChainJob}
    {s : OnChainSettlement} (hfits : given s < 2 ^ 64)
    (howner : record.job.owner ≠ Bytes32.zero)
    (hnamed : ∀ id, id ∈ s.payments ∨ id ∈ s.collateralReturns →
      id ≠ Bytes32.zero) :
    ((∃ c, settlementOutputs C e t record s = .ok c) ↔
      ∀ id, id ∈ s.payments ∨ id ∈ s.collateralReturns →
        share record s id ≠ 0) ∧
    ∀ c, settlementOutputs C e t record s = .ok c →
      c.total.toNat = given s ∧
      ∀ id, c.paidTo e.nativeToken id = share record s id := by
  obtain ⟨amounts, hamounts, hget, htotal, hmem⟩ :=
    settlementAmounts_of_fits record hfits
  have hkeys : ∀ id, id ∈ amounts.keys.insertionSort Bytes32.Before ↔
      id ∈ amounts := fun id => List.mem_insertionSort _
  have hsum := paidSum_keys amounts
  have hnodup : (amounts.keys.insertionSort Bytes32.Before).Nodup :=
    (List.perm_insertionSort _ _).nodup_iff.2 amounts.keys_nodup
  rw [htotal] at hsum
  unfold settlementOutputs
  rw [hamounts, ok_bind]
  simp only
  obtain ⟨hiff, hpaid⟩ := @payAll C e t amounts hnative hshards
    (amounts.keys.insertionSort Bytes32.Before) 0 ⟨0, [], []⟩ (by
      rw [hsum, UInt64.toNat_zero, Nat.zero_add]
      exact hfits)
  have hzero : ∀ id, amounts.get id ≠ 0 ↔ share record s id ≠ 0 := by
    intro id
    rw [← hget, ne_eq, ← UInt64.toNat_inj]
    rfl
  refine ⟨hiff.trans ⟨fun h id hid => ?_, fun h id hid => ?_⟩,
    fun c hc => ?_⟩
  · exact (hzero id).1 (h id ((hkeys id).2 ((hmem id).2 (.inl hid)))).2
  · rcases (hmem id).1 ((hkeys id).1 hid) with hid | ⟨rfl, hpos⟩
    · exact ⟨hnamed id hid, (hzero id).2 (h id hid)⟩
    · refine ⟨howner, (hzero _).2 ?_⟩
      rw [share, if_pos rfl]
      omega
  · obtain ⟨hct, hcoins⟩ := hpaid c hc
    refine ⟨?_, fun id => ?_⟩
    · rw [hct, hsum]
      exact Nat.zero_add _
    · rw [hcoins, ← hget]
      show 0 + _ = _
      rw [Nat.zero_add]
      by_cases hid : id ∈ amounts
      · exact owedTo_of_mem (by rwa [List.map_id']) ((hkeys id).2 hid)
      · rw [Amounts.get_of_not_mem hid, owedTo_of_not_mem]
        · rfl
        · rintro a ha rfl
          exact hid ((hkeys a).1 ha)

theorem jobLockedValue_iff {record : OnChainJob} {locked : UInt64} :
    jobLockedValue record = .ok locked ↔
      locked.toNat = lockedInJob record := by
  refine ⟨jobLockedValue_eq_ok, fun h => ?_⟩
  have hloop : ∀ (as : List Assignment) (start : UInt64),
      start.toNat + as.length * record.job.collateralRequired.toNat <
        2 ^ 64 →
      ∃ total, as.foldlM (fun (locked : UInt64) (_ : Assignment) => do
        refuse (Overflows locked record.job.collateralRequired)
          Error.overflow
        return locked + record.job.collateralRequired) start =
          .ok total := by
    intro as
    induction as with
    | nil => exact fun start _ => ⟨start, rfl⟩
    | cons a as ih =>
      intro start hfits
      rw [List.length_cons, Nat.succ_mul] at hfits
      have hno : ¬ Overflows start record.job.collateralRequired :=
        not_overflows_iff.2 (by omega)
      rw [List.foldlM_cons, refuse_of_not _ hno, ok_bind]
      refine ih _ ?_
      rw [toNat_add_of_fits hno]
      omega
  obtain ⟨total, htotal⟩ := hloop record.assignments record.escrow (by
    rw [← lockedInJob, ← h]
    exact locked.toNat_lt)
  have hsame := jobLockedValue_eq_ok htotal
  rw [← h, UInt64.toNat_inj] at hsame
  rw [← hsame]
  exact htotal

-- ==== settled jobs

section Settled

variable {origin record : OnChainJob} {s : OnChainSettlement}

theorem validate_provider (hv : record.validate = .ok ()) {a : Assignment}
    (ha : a ∈ record.assignments) :
    a.provider ≠ Bytes32.zero ∧ a.price ≠ 0 := by
  have hvalid := (OnChainJob.validate_eq_ok hv).2.1 a ha
  simp only [Assignment.validate, refuse_eq_ok, not_or] at hvalid
  exact hvalid.2

theorem validate_owner (hv : record.validate = .ok ()) :
    record.job.owner ≠ Bytes32.zero := by
  have hjob := (OnChainJob.validate_eq_ok hv).1
  simp only [Job.validate, ok_iff, not_or] at hjob
  exact hjob.1.1

/-- Every account a settlement names is on the root, and is paid. -/
theorem Splits.named (hl : Lifecycle origin record) (h : Splits record s)
    {id : AccountID} (hid : id ∈ s.payments ∨ id ∈ s.collateralReturns) :
    ∃ a ∈ record.assignments, a.provider = id ∧
      s.payments.get id = a.price := by
  have hon := nodup_onRoot hl s.resultRoot
  rw [h.payments, h.collateralReturns, mem_owed hon, mem_owed hon,
    or_self] at hid
  obtain ⟨a, ha, rfl⟩ := hid
  refine ⟨a, List.mem_of_mem_filter ha, rfl, ?_⟩
  rw [h.payments, get_owed hon ha]

theorem Splits.pays (hl : Lifecycle origin record)
    (hv : record.validate = .ok ()) (h : Splits record s)
    (hnative : e.nativeToken ≠ Bytes32.zero) (hshards : e.shardCount ≠ 0)
    (hfits : lockedInJob record < 2 ^ 64) (order : MapOrder) :
    ∃ c, settlementOutputs C e t record (reorderAmounts order s) = .ok c ∧
      jobLockedValue record = .ok c.total ∧
      ∀ id, c.paidTo e.nativeToken id = share record s id := by
  have hgiven : given s = lockedInJob record := h.sum hl
  have hnamed : ∀ id, id ∈ s.payments ∨ id ∈ s.collateralReturns →
      id ≠ Bytes32.zero := by
    intro id hid
    obtain ⟨a, ha, rfl, _⟩ := h.named hl hid
    exact (validate_provider hv ha).1
  obtain ⟨hiff, hpaid⟩ := settlementOutputs_iff (C := C) (t := t) hnative
    hshards (hgiven ▸ hfits) (validate_owner hv) hnamed
  obtain ⟨c, hc⟩ := hiff.2 fun id hid => by
    obtain ⟨a, ha, _, hprice⟩ := h.named hl hid
    have hpos : a.price.toNat ≠ 0 := fun hzero =>
      (validate_provider hv ha).2 (UInt64.toNat_inj.1 hzero)
    rw [share, hprice]
    omega
  obtain ⟨htotal, hcoins⟩ := hpaid c hc
  have hagree := settlementOutputs_reorder (C := C) (e := e) (t := t) order
    record s
  refine ⟨c, ?_, jobLockedValue_iff.2 (htotal.trans hgiven), hcoins⟩
  rw [hc] at hagree
  cases hout : settlementOutputs C e t record (reorderAmounts order s) with
  | ok c' =>
    rw [hout] at hagree
    exact congrArg Except.ok hagree
  | error err =>
    rw [hout] at hagree
    exact hagree.elim

end Settled

/-- Settlements partition what is locked in a job, in every order of the
maps: by agreement and by majority the providers on the strict majority
root are paid and the others slashed, the coins pay each account its
share and add up to the locked value; an expired job gives back all of
it; and with three or more results that agree both rules pay the same. -/
theorem settlements_partition_locked_value (order : MapOrder)
    {origin record : OnChainJob} (hl : Lifecycle origin record)
    (hv : record.validate = .ok ())
    (hnative : e.nativeToken ≠ Bytes32.zero)
    (hshards : e.shardCount ≠ 0) :
    (∀ evidence updated s,
      finalizeOnChain record evidence = .ok (updated, s) ∨
        resolveReplicatedMajorityIn order record = .ok (updated, s) →
      Partitions record s ∧
      (lockedInJob record < 2 ^ 64 → ∃ c,
        settlementOutputs C e t record (reorderAmounts order s) = .ok c ∧
        jobLockedValue record = .ok c.total ∧
        ∀ id, c.paidTo e.nativeToken id = share record s id)) ∧
    (∀ height updated refund returns,
      expireOnChain record height = .ok (updated, refund, returns) →
      refund.toNat + returns.total = lockedInJob record) ∧
    (∀ root, 3 ≤ record.results.length →
      (∀ r ∈ record.results, r.resultRoot = root) →
      (record.status = .awaitingVerification → ∀ evidence,
        (∃ out, finalizeOnChain record evidence = .ok out) ∧
        ∃ out, resolveReplicatedMajorityIn order record = .ok out) ∧
      ∀ evidence updated s updated' s',
        finalizeOnChain record evidence = .ok (updated, s) →
        resolveReplicatedMajorityIn order record = .ok (updated', s') →
        s'.payments = s.payments ∧ s'.refund = s.refund ∧
          s'.collateralReturns = s.collateralReturns) := by
  rw [resolveReplicatedMajorityIn_eq]
  refine ⟨?_, ?_, ?_⟩
  · intro evidence updated s hs
    have hsplits : Splits record s := by
      rcases hs with hs | hs
      · exact splits_finalize hl hs
      · exact splits_resolve hl hv hs
    exact ⟨hsplits.partitions hl,
      fun hfits => hsplits.pays hl hv hnative hshards hfits order⟩
  · intro height updated refund returns h
    exact (expireOnChain_sum hl h).2.2
  · intro root hmany hall
    constructor
    · intro hstatus evidence
      obtain ⟨⟨s, hs⟩, s', hs'⟩ :=
        both_of_unanimous hl hv hstatus hmany hall evidence
      exact ⟨⟨_, hs⟩, _, hs'⟩
    · intro evidence updated s updated' s' hs hs'
      obtain ⟨hpay, hrefund, hret, _⟩ :=
        (splits_finalize hl hs).agree (splits_resolve hl hv hs')
      exact ⟨hpay, hrefund, hret⟩

-- ==== wallets

/-- The native coins a transaction spends beside the excluded objects. -/
def wallet (e : Engine) (t : Transaction) (excluded : List ObjectID) : Nat :=
  sumOf (coinAmount e.nativeToken)
    ((spentObjects t excluded).map Object.payload)

section Wallet

variable {excluded : List ObjectID} {v : UInt64}

/-- Spending on top of more, as long as it fits. -/
theorem spendStep_shift {ce oe : Error} {s s' : Spent} {o : Object}
    (h : spendStep e t excluded ce oe s o = .ok s') :
    s.total.toNat ≤ s'.total.toNat ∧
      (v.toNat + s'.total.toNat < 2 ^ 64 →
        spendStep e t excluded ce oe ⟨v + s.total, s.consumed⟩ o =
          .ok ⟨v + s'.total, s'.consumed⟩) := by
  unfold spendStep at h ⊢
  split
  case isTrue hex =>
    rw [if_pos hex] at h
    obtain rfl := (pure_eq_ok _ _).1 h
    exact ⟨Nat.le_refl _, fun _ => rfl⟩
  case isFalse hex =>
    rw [if_neg hex] at h
    simp only [ok_iff] at h
    obtain ⟨hcoin, coin, hparse, hnative, hno, rfl⟩ := h
    have hsum := toNat_add_of_fits hno
    refine ⟨by rw [hsum]; omega, fun hfits => ?_⟩
    simp only [hsum] at hfits
    have hstart : (v + s.total).toNat = v.toNat + s.total.toNat :=
      toNat_add_of_fits (not_overflows_iff.2 (by omega))
    have hno' : ¬ Overflows (v + s.total) coin.amount :=
      not_overflows_iff.2 (by rw [hstart]; omega)
    rw [refuse_of_not _ hcoin, ok_bind, hparse, failWith_ok, ok_bind,
      refuse_of_not _ hnative, ok_bind, refuse_of_not _ hno', ok_bind,
      UInt64.add_assoc]
    rfl

theorem nativeOutputStep_shift {s s' : Change} {out : OutputSpec × Nat}
    (h : nativeOutputStep C e t s out = .ok s') :
    s.total.toNat ≤ s'.total.toNat ∧
      (v.toNat + s'.total.toNat < 2 ^ 64 →
        nativeOutputStep C e t { s with total := v + s.total } out =
          .ok { s' with total := v + s'.total }) := by
  obtain ⟨spec, i⟩ := out
  unfold nativeOutputStep at h ⊢
  simp only [ok_iff, not_or] at h
  obtain ⟨hkind, coin, hparse, ⟨hnative, hno⟩, destination, hroute, rfl⟩ := h
  have hsum := toNat_add_of_fits hno
  rw [Change.total_place]
  refine ⟨by rw [hsum]; omega, fun hfits => ?_⟩
  simp only [hsum] at hfits
  have hstart : (v + s.total).toNat = v.toNat + s.total.toNat :=
    toNat_add_of_fits (not_overflows_iff.2 (by omega))
  have hno' : ¬ (coin.token ≠ e.nativeToken ∨
      Overflows (v + s.total) coin.amount) := by
    rw [not_or]
    exact ⟨hnative, not_overflows_iff.2 (by rw [hstart]; omega)⟩
  simp only
  rw [refuse_of_not _ hkind, ok_bind, hparse, failWith_ok, ok_bind,
    refuse_of_not _ hno', ok_bind, hroute, failWith_ok, ok_bind,
    UInt64.add_assoc]
  unfold Change.place
  split
  · rfl
  · rfl

/-- A loop whose steps can be shifted can be shifted as a whole. -/
theorem foldlM_shift {σ α : Type} {step : σ → α → Except Error σ}
    (total : σ → Nat) (shift : σ → σ) (limit : Nat)
    (hstep : ∀ s a s', step s a = .ok s' → total s ≤ total s' ∧
      (total s' < limit → step (shift s) a = .ok (shift s')))
    {xs : List α} {s s' : σ} (h : xs.foldlM step s = .ok s') :
    total s ≤ total s' ∧
      (total s' < limit → xs.foldlM step (shift s) = .ok (shift s')) := by
  induction xs generalizing s with
  | nil =>
    obtain rfl := Except.ok.inj h
    exact ⟨Nat.le_refl _, fun _ => rfl⟩
  | cons a xs ih =>
    obtain ⟨s₁, hfirst, hrest⟩ := bind_eq_ok.1 h
    obtain ⟨hle, hshift⟩ := hstep s a s₁ hfirst
    obtain ⟨hle', hshift'⟩ := ih hrest
    refine ⟨hle.trans hle', fun hlimit => ?_⟩
    rw [List.foldlM_cons, hshift (Nat.lt_of_le_of_lt hle' hlimit), ok_bind]
    exact hshift' hlimit

/-- Value that goes in and comes out again does not disturb a wallet that
balances, unless the two do not fit together. -/
theorem accountNativeValue_shift_iff
    {own : List Object × List OutboundOutput × List ObjectID}
    (h : accountNativeValue C e t excluded 0 0 = .ok own)
    {out : List Object × List OutboundOutput × List ObjectID} :
    accountNativeValue C e t excluded v v = .ok out ↔
      v.toNat + wallet e t excluded < 2 ^ 64 ∧ out = own := by
  have hshift : v.toNat + wallet e t excluded < 2 ^ 64 →
      accountNativeValue C e t excluded v v = .ok own := by
    intro hfits
    simp only [accountNativeValue, ok_iff, not_not] at h
    obtain ⟨spent, hspent, change, hchange, hno, hsame, rfl⟩ := h
    have htotal := (spendCoins_eq_ok hspent).total
    rw [UInt64.toNat_zero, Nat.zero_add] at htotal
    rw [wallet, ← htotal, hsame, toNat_add_of_fits hno] at hfits
    have hzero : v + 0 = v := UInt64.add_zero v
    have hspent' := (foldlM_shift (fun s : Spent => s.total.toNat)
      (fun s => ⟨v + s.total, s.consumed⟩) (2 ^ 64 - v.toNat)
      (fun s o s' hs => by
        obtain ⟨hle, hfit⟩ := spendStep_shift (v := v) hs
        exact ⟨hle, fun hlt => hfit (by omega)⟩) hspent).2 (by
          rw [hsame, toNat_add_of_fits hno]
          omega)
    have hchange' := (foldlM_shift (fun s : Change => s.total.toNat)
      (fun s => { s with total := v + s.total }) (2 ^ 64 - v.toNat)
      (fun s o s' hs => by
        obtain ⟨hle, hfit⟩ := nativeOutputStep_shift (v := v) hs
        exact ⟨hle, fun hlt => hfit (by omega)⟩) hchange).2 (by omega)
    simp only [hzero] at hspent' hchange'
    have hstart : (v + change.total).toNat = v.toNat + change.total.toNat :=
      toNat_add_of_fits (not_overflows_iff.2 (by omega))
    have hno' : ¬ Overflows (v + change.total) t.fee :=
      not_overflows_iff.2 (by rw [hstart]; omega)
    unfold accountNativeValue spendCoins
    rw [hspent', ok_bind, hchange', ok_bind]
    simp only
    rw [refuse_of_not _ hno', ok_bind, refuse_of_not _ (by
      rw [hsame, UInt64.add_assoc]
      exact fun hne => hne rfl)]
    rfl
  constructor
  · intro hout
    have hfits : v.toNat + wallet e t excluded < 2 ^ 64 := by
      have hspent := hout
      simp only [accountNativeValue, bind_eq_ok] at hspent
      obtain ⟨spent, hspent, _⟩ := hspent
      rw [wallet, ← (spendCoins_eq_ok hspent).total]
      exact spent.total.toNat_lt
    rw [hshift hfits] at hout
    exact ⟨hfits, (Except.ok.inj hout).symm⟩
  · rintro ⟨hfits, rfl⟩
    exact hshift hfits

end Wallet

-- ==== expired jobs

/-- A request to expire a job, by the owner of its object, whose own coins
and outputs balance its fee. -/
structure ExpireRequest (C : Crypto) (e : Engine) (t : Transaction)
    (payload : Bytes) (record : OnChainJob) (o : Object)
    (own : List Object × List OutboundOutput × List ObjectID) : Prop where
  named : parseJobRef payload = .ok o.id
  witness : ownedWitness t o.id .computeJob = .ok o
  stored : record.marshalBinary = .ok o.data
  balanced : accountNativeValue C e t [o.id] 0 0 = .ok own
  due : record.job.deadlineHeight < e.height

/-- What the escrow and the collateral of a job come to for an account. -/
def unwound (record : OnChainJob) (id : AccountID) : Nat :=
  (if id = record.job.owner then record.escrow.toNat else 0) +
    if ∃ a ∈ record.assignments, a.provider = id
    then record.job.collateralRequired.toNat else 0

/-- The job is unwound: beside the sender's own coins, the coins of the
result give back the escrow and the collateral. -/
def Unwinds (C : Crypto) (e : Engine) (t : Transaction)
    (record : OnChainJob) (o : Object)
    (own : List Object × List OutboundOutput × List ObjectID)
    (r : Result) : Prop :=
  ∃ (c : Change) (receipt : Object),
    r = ⟨own.2.2 ++ [o.id], own.1 ++ c.created ++ [receipt],
      own.2.1 ++ c.outbound, t.id C⟩ ∧
    ∀ id, c.paidTo e.nativeToken id = unwound record id

/-- When a job can be unwound: its record can be read, its value and the
sender's coins fit together, and nobody but the owner is to get back a
collateral of nothing. -/
structure Unwindable (e : Engine) (t : Transaction) (record : OnChainJob)
    (o : Object) : Prop where
  readable : record.assignments.length ≤ 1024
  fits : lockedInJob record + wallet e t [o.id] < 2 ^ 64
  collateral : record.job.collateralRequired = 0 →
    ∀ a ∈ record.assignments, a.provider = record.job.owner

section Expiring

variable {origin record : OnChainJob} {payload : Bytes} {o : Object}
  {own : List Object × List OutboundOutput × List ObjectID}

theorem settle_iff {s : OnChainSettlement} {receipt : SettlementReceipt}
    {r : Result} :
    settle C e t o record s receipt = .ok r ↔
      ∃ c out, settlementOutputs C e t record s = .ok c ∧
        jobLockedValue record = .ok c.total ∧
        accountNativeValue C e t [o.id] c.total c.total = .ok out ∧
        r = ⟨out.2.2 ++ [o.id], out.1 ++ c.created ++
          [newObject C t computeReceiptIndex
            ⟨Bytes32.zero, .system, receipt.marshalBinary⟩],
          out.2.1 ++ c.outbound, t.id C⟩ := by
  simp only [settle, ok_iff, not_not]
  constructor
  · rintro ⟨locked, hlocked, c, hc, rfl, out, hout, rfl⟩
    exact ⟨c, out, hc, hlocked, hout, rfl⟩
  · rintro ⟨c, out, hc, hlocked, hout, rfl⟩
    exact ⟨c.total, hlocked, c, hc, rfl, out, hout, rfl⟩

/-- The settlement of a job that expires. -/
def expirySettlement (record : OnChainJob) : OnChainSettlement where
  jobID := record.id
  resultRoot := Bytes32.zero
  payments := ∅
  refund := record.escrow
  collateralReturns :=
    owed record.assignments fun _ => record.job.collateralRequired
  slashedCollateral := ∅
  slashReward := 0

theorem share_expirySettlement
    (hnodup : (record.assignments.map Assignment.provider).Nodup)
    (id : AccountID) :
    share record (expirySettlement record) id = unwound record id := by
  have hpay : ((∅ : Amounts).get id).toNat = 0 := rfl
  have hreward : (0 : UInt64).toNat = 0 := rfl
  unfold share expirySettlement unwound
  simp only [hpay, hreward, Nat.zero_add, Nat.add_zero]
  rw [Nat.add_comm]
  refine congrArg _ ?_
  split
  case isTrue h =>
    obtain ⟨a, ha, rfl⟩ := h
    rw [get_owed hnodup ha]
  case isFalse h =>
    rw [Amounts.get_of_not_mem fun hmem => h ((mem_owed hnodup).1 hmem)]
    rfl

/-- The payout of a job that expires. -/
theorem settlementOutputs_expiry
    (hnodup : (record.assignments.map Assignment.provider).Nodup)
    (hv : record.validate = .ok ())
    (hnative : e.nativeToken ≠ Bytes32.zero) (hshards : e.shardCount ≠ 0)
    (hfits : lockedInJob record < 2 ^ 64) :
    ((∃ c, settlementOutputs C e t record (expirySettlement record) =
        .ok c) ↔
      (record.job.collateralRequired = 0 →
        ∀ a ∈ record.assignments, a.provider = record.job.owner)) ∧
    ∀ c, settlementOutputs C e t record (expirySettlement record) = .ok c →
      jobLockedValue record = .ok c.total ∧
      ∀ id, c.paidTo e.nativeToken id = unwound record id := by
  have hgiven : given (expirySettlement record) = lockedInJob record := by
    show (∅ : Amounts).total + record.escrow.toNat +
      (owed record.assignments _).total + (0 : UInt64).toNat = _
    have hnone : (∅ : Amounts).total = 0 := rfl
    have hreward : (0 : UInt64).toNat = 0 := rfl
    rw [total_owed hnodup, sum_constant, lockedInJob, hnone, hreward]
    omega
  have hmem : ∀ id, id ∈ (expirySettlement record).payments ∨
      id ∈ (expirySettlement record).collateralReturns ↔
        ∃ a ∈ record.assignments, a.provider = id := by
    intro id
    show id ∈ (∅ : Amounts) ∨ id ∈ owed record.assignments _ ↔ _
    rw [or_iff_right (AList.notMem_empty id)]
    exact mem_owed hnodup
  obtain ⟨hiff, hpaid⟩ := settlementOutputs_iff (C := C) (t := t) hnative
    hshards (hgiven ▸ hfits) (validate_owner hv) (fun id hid => by
      obtain ⟨a, ha, rfl⟩ := (hmem id).1 hid
      exact (validate_provider hv ha).1)
  have hescrow : record.escrow ≠ 0 := by
    have hvalid := hv
    simp only [OnChainJob.validate, Job.validate, ok_iff, not_or,
      UInt64.not_lt] at hvalid
    obtain ⟨⟨_, hmax, _⟩, ⟨⟨_, _, _, hprice, _⟩, _⟩, _⟩ := hvalid
    intro hzero
    rw [hzero, UInt64.le_iff_toNat_le] at hmax
    exact hprice (UInt64.toNat_inj.1 (Nat.le_zero.1 hmax))
  refine ⟨hiff.trans ⟨fun h hzero a ha => ?_, fun h id hid => ?_⟩,
    fun c hc => ?_⟩
  · have hassigned : ∃ b ∈ record.assignments, b.provider = a.provider :=
      ⟨a, ha, rfl⟩
    have hshare := h a.provider ((hmem _).2 hassigned)
    rw [share_expirySettlement hnodup, unwound, if_pos hassigned,
      hzero] at hshare
    by_contra hne
    rw [if_neg hne] at hshare
    exact hshare rfl
  · obtain ⟨a, ha, rfl⟩ := (hmem id).1 hid
    have hassigned : ∃ b ∈ record.assignments, b.provider = a.provider :=
      ⟨a, ha, rfl⟩
    rw [share_expirySettlement hnodup, unwound, if_pos hassigned]
    by_cases hzero : record.job.collateralRequired = 0
    · rw [if_pos (h hzero a ha), hzero]
      exact fun heq => hescrow (UInt64.toNat_inj.1 heq)
    · have hpos : record.job.collateralRequired.toNat ≠ 0 := fun heq =>
        hzero (UInt64.toNat_inj.1 heq)
      omega
  · obtain ⟨htotal, hcoins⟩ := hpaid c hc
    refine ⟨jobLockedValue_iff.2 (htotal.trans hgiven), fun id => ?_⟩
    rw [hcoins, share_expirySettlement hnodup]

theorem unwound_normalized (id : AccountID) :
    unwound record.normalized id = unwound record id := by
  have hmem : (∃ a ∈ record.normalized.assignments, a.provider = id) ↔
      ∃ a ∈ record.assignments, a.provider = id := by
    simp only [OnChainJob.normalized, OnChainJob.sortedAssignments,
      List.mem_insertionSort]
  unfold unwound
  simp only [hmem]
  rfl

/-- A request to expire a job that is due gives back the escrow and the
collateral exactly when the job can be unwound. -/
theorem expire_unwinds_iff (hl : Lifecycle origin record)
    (hlive : ¬ record.status.Final)
    (hreq : ExpireRequest C e t payload record o own)
    (hnative : e.nativeToken ≠ Bytes32.zero) (hshards : e.shardCount ≠ 0) :
    (∃ r, executeComputeExpire C e t payload = .ok r ∧
      Unwinds C e t record o own r) ↔ Unwindable e t record o := by
  have hstored := hreq.stored
  simp only [OnChainJob.marshalBinary, bind_eq_ok, exists_unit,
    pure_eq_ok] at hstored
  obtain ⟨hv, hdata⟩ := hstored
  have hresults := Lifecycle.Reports.length_le ⟨hl.reporters, hl.reported⟩
  have hcount : record.assignments.length < 2 ^ 32 := by
    refine Nat.lt_of_le_of_lt hl.count ?_
    unfold Job.requiredAssignments
    split
    · exact Nat.lt_trans (UInt16.toNat_lt _) (by decide)
    · decide
  have hparse : ∀ back, parseOnChainJob o.data = .ok back ↔
      back = record.normalized ∧ record.assignments.length ≤ 1024 := by
    intro back
    rw [← hdata, parseOnChainJob, OnChainJob.parse_encode_iff hv (by decide)
      hcount (by omega)]
    exact and_congr_right fun _ => ⟨And.left, fun h => ⟨h, by omega⟩⟩
  have hperm := List.perm_insertionSort
    (fun a b : Assignment => Bytes32.Before a.provider b.provider)
    record.assignments
  have hnodup : (record.normalized.assignments.map
      Assignment.provider).Nodup :=
    (hperm.map _).nodup_iff.2 hl.providers
  have hlocked : lockedInJob record.normalized = lockedInJob record := by
    rw [lockedInJob, lockedInJob]
    exact congrArg (fun n => _ + n * _) hperm.length_eq
  have hexpire : expireOnChain record.normalized e.height =
      .ok ({ record.normalized with status := .expired }, record.escrow,
        owed record.normalized.assignments
          fun _ => record.job.collateralRequired) := by
    have hopen : ¬ (record.normalized.status = .settled ∨
        record.normalized.status = .expired ∨
        e.height ≤ record.normalized.job.deadlineHeight) := by
      rintro (h | h | h)
      · exact hlive (.inl h)
      · exact hlive (.inr h)
      · exact UInt64.not_lt.2 h hreq.due
    unfold expireOnChain
    rw [refuse_of_not _ hopen]
    rfl
  -- from here on the request is the payout of the record as it is read back
  have hrun : ∀ r, executeComputeExpire C e t payload = .ok r ↔
      record.assignments.length ≤ 1024 ∧
        settle C e t o record.normalized
          (expirySettlement record.normalized)
          { jobID := record.id
            resultRoot := Bytes32.zero
            payments := ∅
            refund := record.escrow
            slashed := ∅
            slashReward := 0
            expired := true } = .ok r := by
    intro r
    unfold executeComputeExpire
    rw [hreq.named, ok_bind, hreq.witness, ok_bind, bind_eq_ok]
    constructor
    · rintro ⟨back, hback, hrest⟩
      obtain ⟨rfl, hreadable⟩ := (hparse back).1 hback
      rw [hexpire] at hrest
      exact ⟨hreadable, hrest⟩
    · rintro ⟨hreadable, hrest⟩
      refine ⟨_, (hparse _).2 ⟨rfl, hreadable⟩, ?_⟩
      rw [hexpire]
      exact hrest
  have hpayout := fun hfits : lockedInJob record < 2 ^ 64 =>
    settlementOutputs_expiry (C := C) (t := t) hnodup
      (OnChainJob.validate_normalized hv) hnative hshards
      (hlocked ▸ hfits)
  have howner : (∀ a ∈ record.normalized.assignments,
      a.provider = record.job.owner) ↔
        ∀ a ∈ record.assignments, a.provider = record.job.owner :=
    forall_congr' fun a => imp_congr_left hperm.mem_iff
  constructor
  · rintro ⟨r, hr, _⟩
    obtain ⟨hreadable, hsettle⟩ := (hrun r).1 hr
    obtain ⟨c, out, hc, htotal, hvalue, _⟩ := settle_iff.1 hsettle
    have hfits := ((accountNativeValue_shift_iff hreq.balanced).1 hvalue).1
    rw [jobLockedValue_iff.1 htotal, hlocked] at hfits
    exact ⟨hreadable, hfits, fun hzero => howner.1
      ((hpayout (by omega)).1.1 ⟨c, hc⟩ hzero)⟩
  · intro h
    have hsmall : lockedInJob record < 2 ^ 64 := by
      have := h.fits
      omega
    obtain ⟨hiff, hcoins⟩ := hpayout hsmall
    obtain ⟨c, hc⟩ := hiff.2 fun hzero => howner.2 (h.collateral hzero)
    obtain ⟨htotal, hpaid⟩ := hcoins c hc
    have hvalue : accountNativeValue C e t [o.id] c.total c.total =
        .ok own := by
      refine (accountNativeValue_shift_iff hreq.balanced).2 ⟨?_, rfl⟩
      rw [jobLockedValue_iff.1 htotal, hlocked]
      exact h.fits
    refine ⟨_, (hrun _).2 ⟨h.readable, settle_iff.2
      ⟨c, own, hc, htotal, hvalue, rfl⟩⟩, c, _, rfl, fun id => ?_⟩
    rw [hpaid, unwound_normalized]

end Expiring

-- ==== a job that dissents

/-- Three replicas at the price of one, no collateral. -/
def ownJob : Job := { replicatedJob with owner := Vector.replicate 32 4 }

def openRecord : OnChainJob :=
  ⟨Vector.replicate 32 4, ownJob, 3, .pending, [], []⟩

theorem ownJob_created :
    ∃ o, newJobObject sampleJobCrypto Bytes32.zero 0 ownJob 3 =
      .ok (o, openRecord) := by
  have h : (do
      let out ← newJobObject sampleJobCrypto Bytes32.zero 0 ownJob 3
      return out.2 : Except Error OnChainJob) = .ok openRecord := by
    decide +kernel
  simp only [ok_iff] at h
  obtain ⟨⟨o, record⟩, hnew, rfl⟩ := h
  exact ⟨o, hnew⟩

/-- The third provider reports another root. -/
def dissentResults : List ComputeResult :=
  [unitResult openRecord.id 1, unitResult openRecord.id 2,
    { unitResult openRecord.id 3 with resultRoot := Vector.replicate 32 6 }]

def dissentOps : List JobOp :=
  [1, 2, 3].map (fun p => JobOp.assign (Vector.replicate 32 p)
      (unitOffer p) 1) ++ dissentResults.map JobOp.submit

/-- The record once all three have reported. -/
def dissentRecord : OnChainJob :=
  { openRecord with
    status := .awaitingVerification
    assignments := [1, 2, 3].map fun p =>
      ⟨Vector.replicate 32 p, Vector.replicate 32 p, 1⟩
    results := dissentResults }

theorem lifecycle_openRecord : Lifecycle openRecord openRecord := by
  obtain ⟨o, hnew⟩ := ownJob_created
  exact lifecycle_newJobObject hnew

theorem lifecycle_dissentRecord : Lifecycle openRecord dissentRecord := by
  have hfold : dissentOps.foldlM JobOp.apply openRecord =
      .ok dissentRecord := by
    decide +kernel
  obtain ⟨steps, hrun, -⟩ := JobRun.of_foldlM hfold
  exact (lifecycle_openRecord.run hrun).1

/-- The majority is paid and the dissenter is not. -/
theorem settlements_partition_dissent : ∃ updated s,
    resolveReplicatedMajorityIn .stored dissentRecord = .ok (updated, s) ∧
      Partitions dissentRecord s := by
  have hsome : (resolveReplicatedMajorityIn .stored
      dissentRecord).isOk = true := by
    decide +kernel
  obtain ⟨out, h⟩ := exists_of_isOk hsome
  obtain ⟨hsettled, -, -⟩ := settlements_partition_locked_value
    (C := sampleJobCrypto) (e := sampleEngine (Vector.replicate 32 7))
    (t := sampleTransaction sampleJobCrypto ⟨Op.computeFinalize, []⟩)
    .stored lifecycle_dissentRecord (by decide +kernel) (by decide)
    (by decide)
  exact ⟨out.1, out.2, h,
    (hsettled ⟨false, false, false, false, false⟩ _ _ (.inr h)).1⟩

-- ==== a request to expire

def jobObjectID : ObjectID := Vector.replicate 32 8

/-- The object of a job, owned by the sender. -/
def jobObjectOf (record : OnChainJob) : Object :=
  ⟨jobObjectID, 1, Vector.replicate 32 4, .computeJob, record.encode⟩

def expireRequest (record : OnChainJob) : Transaction :=
  { sampleTransaction sampleJobCrypto
      ⟨Op.computeExpire, jobObjectID.toList⟩ with
    witnesses := [seen (jobObjectOf record)] }

/-- One block after the deadline. -/
def lateEngine : Engine :=
  { sampleEngine (Vector.replicate 32 7) with height := 11 }

theorem expireRequest_openRecord : ExpireRequest sampleJobCrypto lateEngine
    (expireRequest openRecord) jobObjectID.toList openRecord
    (jobObjectOf openRecord) ([], [], []) := by
  constructor <;> decide +kernel

theorem expireRequest_dissentRecord : ExpireRequest sampleJobCrypto
    lateEngine (expireRequest dissentRecord) jobObjectID.toList
    dissentRecord (jobObjectOf dissentRecord) ([], [], []) := by
  constructor <;> decide +kernel

/-- A job nobody took is unwound. -/
theorem expire_unwinds_openRecord : ∃ r,
    executeComputeExpire sampleJobCrypto lateEngine
      (expireRequest openRecord) jobObjectID.toList = .ok r ∧
    Unwinds sampleJobCrypto lateEngine (expireRequest openRecord) openRecord
      (jobObjectOf openRecord) ([], [], []) r :=
  (expire_unwinds_iff lifecycle_openRecord (by rintro (h | h) <;> cases h)
    expireRequest_openRecord (by decide) (by decide)).2
      ⟨by decide, by decide +kernel, fun _ a ha => by cases ha⟩

/-- A job without collateral that three providers took is stuck. -/
theorem dissentRecord_never_expires :
    Lifecycle openRecord dissentRecord ∧ ¬ dissentRecord.status.Final ∧
    ExpireRequest sampleJobCrypto lateEngine (expireRequest dissentRecord)
      jobObjectID.toList dissentRecord (jobObjectOf dissentRecord)
      ([], [], []) ∧
    executeComputeExpire sampleJobCrypto lateEngine
      (expireRequest dissentRecord) jobObjectID.toList =
        .error .marketEscrow :=
  ⟨lifecycle_dissentRecord, (by rintro (h | h) <;> cases h),
    expireRequest_dissentRecord,
    by decide +kernel⟩

end ZephyrChain.Execution
