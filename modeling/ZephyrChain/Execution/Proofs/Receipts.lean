/-
What a settlement leaves behind.

# Receipts

The receipt of a settlement holds two maps of amounts. The parser of
receipts refuses an amount of zero, the writer does not: a minority that
loses a collateral of zero is written as slashed by zero, and such a
receipt cannot be read (`settlement_receipts_readable_iff`).

# Work

The three observations of verified work settle the job again in
different ways. They agree, since a job settles in one way only
(`Splits`), and what they report as paid is what the settlement pays.
-/
import ZephyrChain.Compute.Work
import ZephyrChain.Execution.Proofs.Payouts

namespace ZephyrChain

open Lib

-- ==== amounts

/-- The map that is read from the entries of an account list. -/
def readBack (values : Amounts) (ids : List AccountID) (out : Amounts) :
    Amounts :=
  ids.foldl (fun m id => m.insert id (values.get id)) out

theorem lookup_readBack (values : Amounts) (ids : List AccountID)
    (out : Amounts) (id : AccountID) :
    (readBack values ids out).lookup id =
      if id ∈ ids then some (values.get id) else out.lookup id := by
  induction ids generalizing out with
  | nil => rfl
  | cons first ids ih =>
    rw [readBack, List.foldl_cons, ← readBack, ih]
    by_cases hrest : id ∈ ids
    · rw [if_pos hrest, if_pos (List.mem_cons_of_mem _ hrest)]
    · by_cases hfirst : id = first
      · rw [if_neg hrest, hfirst, AList.lookup_insert,
          if_pos List.mem_cons_self]
      · rw [if_neg hrest, AList.lookup_insert_ne hfirst,
          if_neg (by simp [hfirst, hrest])]

def amountBytes (values : Amounts) (id : AccountID) : Bytes :=
  Writer.fixed id ++ Writer.u64 (values.get id)

theorem parses_readAmounts (values : Amounts) (ids : List AccountID)
    (out : Amounts) (hnodup : ids.Nodup)
    (h : ∀ id ∈ ids, id ∉ out ∧ id ≠ Bytes32.zero ∧ values.get id ≠ 0) :
    Parses (readAmounts ids.length out) (ids.flatMap (amountBytes values))
      (readBack values ids out) := by
  induction ids generalizing out with
  | nil => exact Parses.pure out
  | cons id ids ih =>
    obtain ⟨hid, hids⟩ := List.nodup_cons.1 hnodup
    obtain ⟨hnew, hzero, hsome⟩ := h id List.mem_cons_self
    have hfirst : Parses (readAmount out) (amountBytes values id)
        (out.insert id (values.get id)) := by
      refine (Reader.exact_fixed.parses trivial).bind ?_
      refine (Reader.exact_u64.parses trivial).bind_nil ?_
      refine (Parses.refuse ?_).bind_nil (Parses.pure _)
      rintro (hbad | hbad | hbad)
      · exact hsome hbad
      · exact hzero hbad
      · exact hnew hbad
    rw [List.flatMap_cons]
    refine hfirst.bind (ih _ hids fun other hother => ?_)
    obtain ⟨hout, hrest⟩ := h other (List.mem_cons_of_mem _ hother)
    refine ⟨?_, hrest⟩
    rw [AList.mem_insert, not_or]
    exact ⟨fun heq => hid (heq ▸ hother), hout⟩

/-- A map that the parser of receipts accepts. -/
structure Amounts.Readable (values : Amounts) : Prop where
  few : values.keys.length ≤ 1024
  account : ∀ id ∈ values.keys, id ≠ Bytes32.zero
  amount : ∀ id ∈ values.keys, values.get id ≠ 0

/-- The accounts in the order they are written in. -/
def writtenIDs (values : Amounts) : List AccountID :=
  values.keys.insertionSort Bytes32.Before

theorem perm_writtenIDs (values : Amounts) :
    (writtenIDs values).Perm values.keys :=
  List.perm_insertionSort _ _

theorem Amounts.encode_eq (values : Amounts) : values.encode =
    Writer.u32 (UInt32.ofNat (writtenIDs values).length) ++
      (writtenIDs values).flatMap (amountBytes values) := rfl

variable {values : Amounts}

theorem toNat_length_writtenIDs (h : values.keys.length ≤ 1024) :
    (UInt32.ofNat (writtenIDs values).length).toNat =
      (writtenIDs values).length := by
  rw [UInt32.toNat_ofNat', Nat.mod_eq_of_lt]
  rw [(perm_writtenIDs values).length_eq]
  omega

theorem Amounts.Readable.parses (h : values.Readable) :
    Parses readAccountAmounts values.encode
      (readBack values (writtenIDs values) ∅) := by
  have hperm := perm_writtenIDs values
  have hcount := toNat_length_writtenIDs h.few
  rw [Amounts.encode_eq]
  refine (Reader.exact_u32.parses trivial).bind ?_
  refine (Parses.refuse ?_).bind ?_
  · rw [hcount, hperm.length_eq]
    exact Nat.not_lt.2 h.few
  · rw [hcount]
    refine parses_readAmounts values _ ∅
      (hperm.nodup_iff.2 values.nodupKeys) fun id hid => ?_
    have hmem := hperm.mem_iff.1 hid
    exact ⟨AList.notMem_empty id, h.account id hmem, h.amount id hmem⟩

/-- What is read back is the map that was written. -/
theorem lookup_readBack_writtenIDs (values : Amounts) (id : AccountID) :
    (readBack values (writtenIDs values) ∅).lookup id =
      values.lookup id := by
  rw [lookup_readBack]
  by_cases hid : id ∈ values.keys
  · rw [if_pos ((perm_writtenIDs values).mem_iff.2 hid)]
    exact (Amounts.lookup_of_mem hid).symm
  · rw [if_neg fun h => hid ((perm_writtenIDs values).mem_iff.1 h),
      AList.lookup_empty]
    exact (AList.lookup_eq_none.2 hid).symm

/-- A map of zeros is not read. -/
theorem fails_of_zeros (hfew : values.keys.length ≤ 1024)
    (hsome : values.keys ≠ []) (hzero : ∀ id, values.get id = 0) :
    Fails readAccountAmounts values.encode := by
  have hcount := toNat_length_writtenIDs hfew
  have hperm := perm_writtenIDs values
  rw [Amounts.encode_eq]
  refine (Reader.exact_u32.parses trivial).bind_fails (Fails.of_not ?_ ?_)
  · rw [hcount, hperm.length_eq]
    exact Nat.not_lt.2 hfew
  · rw [hcount]
    cases hids : writtenIDs values with
    | nil =>
      rw [hids] at hperm
      exact absurd hperm.nil_eq.symm hsome
    | cons id ids =>
      rw [List.flatMap_cons]
      refine Fails.bind ?_ _ _
      have hfail : Fails (readAmount ∅) (Writer.fixed id ++
          (Writer.u64 (values.get id) ++ [])) := by
        refine (Reader.exact_fixed.parses trivial).bind_fails ?_
        refine (Reader.exact_u64.parses trivial).bind_fails ?_
        exact Fails.refuse (.inl (hzero id)) _ _
      rw [List.append_nil] at hfail
      exact hfail

-- ==== receipts

/-- The parser gives back what was written. -/
def SettlementReceipt.Readable (r : SettlementReceipt) : Prop :=
  ∃ back, parseSettlementReceipt r.marshalBinary = .ok back ∧
    back.jobID = r.jobID ∧ back.resultRoot = r.resultRoot ∧
    (∀ id, back.payments.lookup id = r.payments.lookup id) ∧
    back.refund = r.refund ∧
    (∀ id, back.slashed.lookup id = r.slashed.lookup id) ∧
    back.slashReward = r.slashReward ∧ back.expired = r.expired

/-- What the parser returns for a receipt with readable maps. -/
def SettlementReceipt.back (r : SettlementReceipt) : SettlementReceipt :=
  { r with
    payments := readBack r.payments (writtenIDs r.payments) ∅
    slashed := readBack r.slashed (writtenIDs r.slashed) ∅ }

theorem keys_readBack_eq_nil (values : Amounts) :
    (readBack values (writtenIDs values) ∅).keys = [] ↔
      values.keys = [] := by
  have hmem : ∀ id, id ∈ (readBack values (writtenIDs values) ∅).keys ↔
      id ∈ values.keys := by
    intro id
    rw [← AList.mem_keys, ← AList.mem_keys, ← not_iff_not,
      ← AList.lookup_eq_none, ← AList.lookup_eq_none,
      lookup_readBack_writtenIDs]
  rw [List.eq_nil_iff_forall_not_mem, List.eq_nil_iff_forall_not_mem]
  exact forall_congr' fun id => not_congr (hmem id)

theorem SettlementReceipt.readable {r : SettlementReceipt}
    (hwell : r.WellFormed) (hpay : r.payments.Readable)
    (hslash : r.slashed.Readable) : r.Readable := by
  have hread : Parses SettlementReceipt.read r.marshalBinary r.back := by
    unfold SettlementReceipt.marshalBinary
    simp only [List.append_assoc]
    refine (Reader.exact_fixed.parses trivial).bind ?_
    refine (Reader.exact_fixed.parses trivial).bind ?_
    refine hpay.parses.bind ?_
    refine (Reader.exact_u64.parses trivial).bind ?_
    refine hslash.parses.bind ?_
    refine (Reader.exact_u64.parses trivial).bind ?_
    exact (Reader.exact_bool.parses trivial).bind_nil (Parses.pure _)
  have hback : r.back.WellFormed := by
    unfold SettlementReceipt.WellFormed SettlementReceipt.back at *
    simp only [ne_eq, keys_readBack_eq_nil]
    exact hwell
  refine ⟨r.back, ?_, rfl, rfl, lookup_readBack_writtenIDs _, rfl,
    lookup_readBack_writtenIDs _, rfl, rfl⟩
  rw [parseSettlementReceipt, parseWith_of_parses _ hread, ok_bind,
    refuse_of_not _ (not_not.2 hback)]
  rfl

/-- A receipt that slashes by zero is not read. -/
theorem SettlementReceipt.not_readable {r : SettlementReceipt}
    (hpay : r.payments.Readable) (hfew : r.slashed.keys.length ≤ 1024)
    (hsome : r.slashed.keys ≠ []) (hzero : ∀ id, r.slashed.get id = 0) :
    ¬ r.Readable := by
  have hfail : Fails SettlementReceipt.read r.marshalBinary := by
    unfold SettlementReceipt.marshalBinary
    simp only [List.append_assoc]
    refine (Reader.exact_fixed.parses trivial).bind_fails ?_
    refine (Reader.exact_fixed.parses trivial).bind_fails ?_
    refine hpay.parses.bind_fails ?_
    refine (Reader.exact_u64.parses trivial).bind_fails ?_
    exact (fails_of_zeros hfew hsome hzero).bind _ _
  rintro ⟨back, hback, _⟩
  rw [parseSettlementReceipt, parseWith_of_fails _ hfail] at hback
  cases hback

end ZephyrChain
namespace ZephyrChain.Execution

open Lib

section Left

variable {C : Crypto} {e : Engine} {t : Transaction} {payload : Bytes}
  {origin record updated : OnChainJob} {s : OnChainSettlement} {r : Result}

theorem validate_id (hv : record.validate = .ok ()) :
    ¬ IsZero32 record.id := by
  simp only [OnChainJob.validate, ok_iff, not_or] at hv
  exact hv.1.1

/-- The last object a transaction creates is a system object that holds a
receipt. -/
def LeavesReceipt (r : Result) (receipt : SettlementReceipt) : Prop :=
  ∃ o, r.created.getLast? = some o ∧ o.kind = .system ∧
    o.data = receipt.marshalBinary

/-- The job a payload names is one of the witnesses, and reads as a
record. -/
def NamesJob (t : Transaction) (payload : Bytes) (record : OnChainJob) :
    Prop :=
  ∃ id o, parseJobRef payload = .ok id ∧
    ownedWitness t id .computeJob = .ok o ∧
    parseOnChainJob o.data = .ok record

theorem leavesReceipt_settle {o : Object} {receipt : SettlementReceipt}
    (h : settle C e t o record s receipt = .ok r) :
    LeavesReceipt r receipt := by
  obtain ⟨c, out, _, _, _, rfl⟩ := settle_iff.1 h
  exact ⟨_, List.getLast?_concat, rfl, rfl⟩

theorem splits_settlementOf (hl : Lifecycle origin record)
    (hv : record.validate = .ok ()) {majority : Bool}
    (h : settlementOf record majority = .ok (updated, s)) :
    Splits record s := by
  cases majority with
  | true => exact splits_resolve hl hv h
  | false =>
    simp only [settlementOf, Bool.false_eq_true, if_false, ok_iff] at h
    exact splits_finalize hl h.2

variable {as : List Assignment} {value : Assignment → UInt64}

theorem length_keys_owed (hnodup : (as.map Assignment.provider).Nodup) :
    (owed as value).keys.length ≤ as.length := by
  have hsub : (owed as value).keys ⊆ as.map Assignment.provider := by
    intro id hid
    obtain ⟨a, ha, rfl⟩ := (mem_owed hnodup).1 (AList.mem_keys.2 hid)
    exact List.mem_map_of_mem ha
  have hle := ((owed as value).nodupKeys.subperm hsub).length_le
  rwa [List.length_map] at hle

/-- The amounts of some of the assignments of a record are read back,
unless they are zero. -/
theorem readable_owed (hnodup : (as.map Assignment.provider).Nodup)
    (hmem : ∀ a ∈ as, a ∈ record.assignments)
    (hv : record.validate = .ok ()) (hfew : as.length ≤ 1024)
    (hvalue : ∀ a ∈ as, value a ≠ 0) : (owed as value).Readable := by
  have hkey : ∀ id ∈ (owed as value).keys, ∃ a ∈ as, a.provider = id :=
    fun id hid => (mem_owed hnodup).1 (AList.mem_keys.2 hid)
  refine ⟨(length_keys_owed hnodup).trans hfew, fun id hid => ?_,
    fun id hid => ?_⟩
  · obtain ⟨a, ha, rfl⟩ := hkey id hid
    exact (validate_provider hv (hmem a ha)).1
  · obtain ⟨a, ha, rfl⟩ := hkey id hid
    rw [get_owed hnodup ha]
    exact hvalue a ha

theorem keys_owed_ne_nil (hnodup : (as.map Assignment.provider).Nodup)
    {a : Assignment} (ha : a ∈ as) : (owed as value).keys ≠ [] :=
  List.ne_nil_of_mem (AList.mem_keys.1 ((mem_owed hnodup).2 ⟨a, ha, rfl⟩))

/-- The receipt of a settlement is readable unless it slashes by zero. -/
theorem Splits.readable_iff (hl : Lifecycle origin record)
    (hv : record.validate = .ok ()) (hfew : record.assignments.length ≤ 1024)
    (h : Splits record s) :
    (s.receipt record.id).Readable ↔ record.job.collateralRequired ≠ 0 ∨
      offRoot record s.resultRoot = [] := by
  have hon := nodup_onRoot hl s.resultRoot
  have hoff := nodup_offRoot hl s.resultRoot
  have hroot := root_ne_zero hv h.majority
  have hlengths := length_roots record s.resultRoot
  have hpay : s.payments.Readable := by
    rw [h.payments]
    refine readable_owed hon (fun a ha => List.mem_of_mem_filter ha) hv
      (by omega) fun a ha => ?_
    exact (validate_provider hv (List.mem_of_mem_filter ha)).2
  constructor
  · intro hread
    by_contra hbad
    rw [not_or, not_not] at hbad
    obtain ⟨hzero, hsome⟩ := hbad
    obtain ⟨a, ha⟩ := List.exists_mem_of_ne_nil _ hsome
    have hslashed : (s.receipt record.id).slashed =
        owed (offRoot record s.resultRoot)
          fun _ => record.job.collateralRequired := h.slashed
    refine SettlementReceipt.not_readable hpay ?_ ?_ ?_ hread
    · rw [hslashed]
      exact (length_keys_owed hoff).trans (by omega)
    · rw [hslashed]
      exact keys_owed_ne_nil hoff ha
    · intro id
      rw [hslashed]
      by_cases hid : id ∈ owed (offRoot record s.resultRoot)
          fun _ => record.job.collateralRequired
      · obtain ⟨b, hb, rfl⟩ := (mem_owed hoff).1 hid
        rw [get_owed hoff hb]
        exact hzero
      · exact Amounts.get_of_not_mem hid
  · intro hgood
    refine SettlementReceipt.readable ⟨?_, ?_⟩ hpay ?_
    · exact validate_id hv
    · have hreported : ∃ a, a ∈ onRoot record s.resultRoot := by
        obtain ⟨result, hresult, hown⟩ := majority_reported h.majority
        obtain ⟨a, ha, heq⟩ := hl.reported result hresult
        exact ⟨a, List.mem_filter.2 ⟨ha, decide_eq_true
          ⟨result, hresult, heq.symm, hown⟩⟩⟩
      obtain ⟨a, ha⟩ := hreported
      refine ⟨hroot, ?_⟩
      show s.payments.keys ≠ []
      rw [h.payments]
      exact keys_owed_ne_nil hon ha
    · show s.slashedCollateral.Readable
      rw [h.slashed]
      refine readable_owed hoff (fun a ha => List.mem_of_mem_filter ha) hv
        (by omega) fun a ha => ?_
      rcases hgood with hgood | hnone
      · exact hgood
      · rw [hnone] at ha
        cases ha

end Left

/-- Every settlement leaves a receipt. The receipt of an expiry is read
back; that of finalizing or resolving just when the job's collateral is
not zero or all providers reported the accepted root. -/
theorem settlement_receipts_readable_iff (C : Crypto) (e : Engine)
    (t : Transaction) (payload : Bytes) (origin record : OnChainJob)
    (hnamed : NamesJob t payload record) (hl : Lifecycle origin record) :
    (∀ majority r, executeComputeFinalize C e t payload majority = .ok r →
      ∃ updated s, settlementOf record majority = .ok (updated, s) ∧
        LeavesReceipt r (s.receipt record.id) ∧
        ((s.receipt record.id).Readable ↔
          record.job.collateralRequired ≠ 0 ∨
            offRoot record (majorityRoot record.results).1 = [])) ∧
    ∀ r, executeComputeExpire C e t payload = .ok r →
      ∃ receipt, LeavesReceipt r receipt ∧ receipt.expired = true ∧
        receipt.jobID = record.id ∧ receipt.refund = record.escrow ∧
        receipt.Readable := by
  obtain ⟨id, o, hid, ho, hrecord⟩ := hnamed
  have hv := (parseOnChainJob_iff.1 hrecord).2.1
  have hfew := (parseOnChainJob_iff.1 hrecord).2.2.1
  constructor
  · intro majority r h
    simp only [executeComputeFinalize, hid, ho, hrecord, ok_bind,
      failWith_ok, bind_eq_ok, exists_unit, refuse_eq_ok] at h
    obtain ⟨_, ⟨updated, s⟩, hs, hsettle⟩ := h
    have hsplits := splits_settlementOf hl hv hs
    refine ⟨updated, s, hs, leavesReceipt_settle hsettle, ?_⟩
    rw [majorityRoot_of_majority hsplits.majority]
    exact hsplits.readable_iff hl hv hfew
  · intro r h
    simp only [executeComputeExpire, hid, ho, hrecord, ok_bind, bind_eq_ok,
      expireOnChain, refuse_eq_ok, exists_unit, pure_eq_ok] at h
    obtain ⟨_, ⟨_, rfl⟩, hsettle⟩ := h
    refine ⟨_, leavesReceipt_settle hsettle, rfl, rfl, rfl, ?_⟩
    have hempty : (∅ : Amounts).Readable :=
      ⟨Nat.zero_le _, fun id hid => by (cases hid),
        fun id hid => by (cases hid)⟩
    exact SettlementReceipt.readable
      ⟨validate_id hv, rfl, rfl, rfl, rfl⟩ hempty hempty

-- ==== a minority without stake

theorem dissent_named : NamesJob (expireRequest dissentRecord)
    jobObjectID.toList dissentRecord :=
  ⟨jobObjectID, jobObjectOf dissentRecord, by decide +kernel,
    by decide +kernel, by decide +kernel⟩

/-- The last object created when the job with a dissenter is resolved. -/
def dissentResolved : Except Error (Option Object) := do
  let r ← executeComputeFinalize sampleJobCrypto lateEngine
    (expireRequest dissentRecord) jobObjectID.toList true
  return r.created.getLast?

/-- Its kind, and whether it is read. -/
def dissentReceipt : Except Error (Option (Kind × Bool)) := do
  let o ← dissentResolved
  return o.map fun o => (o.kind, (parseSettlementReceipt o.data).isOk)

theorem dissentReceipt_eq :
    dissentReceipt = .ok (some (.system, false)) := by
  decide +kernel

theorem dissent_resolves : ∃ r o,
    executeComputeFinalize sampleJobCrypto lateEngine
      (expireRequest dissentRecord) jobObjectID.toList true = .ok r ∧
    r.created.getLast? = some o ∧ o.kind = .system ∧
    (parseSettlementReceipt o.data).isOk = false := by
  have h := dissentReceipt_eq
  simp only [dissentReceipt, dissentResolved, ok_iff] at h
  obtain ⟨last, ⟨r, hr, rfl⟩, hlast⟩ := h
  obtain ⟨o, ho, hkind⟩ := Option.map_eq_some_iff.1 hlast
  exact ⟨r, o, hr, ho, congrArg Prod.fst hkind, congrArg Prod.snd hkind⟩

/-- The condition fails for the job with a dissenter. -/
theorem settlement_receipts_dissent :
    ∃ updated s, settlementOf dissentRecord true = .ok (updated, s) ∧
      ¬ (s.receipt dissentRecord.id).Readable := by
  obtain ⟨r, _, hr, _⟩ := dissent_resolves
  obtain ⟨updated, s, hs, _, hiff⟩ := (settlement_receipts_readable_iff
    sampleJobCrypto lateEngine (expireRequest dissentRecord)
    jobObjectID.toList openRecord dissentRecord dissent_named
    lifecycle_dissentRecord).1 true r hr
  refine ⟨updated, s, hs, fun hread => ?_⟩
  have hbad : ¬ (dissentRecord.job.collateralRequired ≠ 0 ∨
      offRoot dissentRecord (majorityRoot dissentRecord.results).1 =
        []) := by
    decide +kernel
  exact hbad (hiff.1 hread)

/-- Two of three replicas agree and the job asks for no collateral. The
job is resolved, and the receipt it leaves is not read. -/
theorem dissent_receipt_unreadable : ∃ r o,
    NamesJob (expireRequest dissentRecord) jobObjectID.toList
      dissentRecord ∧ Lifecycle openRecord dissentRecord ∧
    executeComputeFinalize sampleJobCrypto lateEngine
      (expireRequest dissentRecord) jobObjectID.toList true = .ok r ∧
    r.created.getLast? = some o ∧ o.kind = .system ∧
    ∀ receipt, parseSettlementReceipt o.data ≠ .ok receipt := by
  obtain ⟨r, o, hr, ho, hkind, hread⟩ := dissent_resolves
  refine ⟨r, o, dissent_named, lifecycle_dissentRecord, hr, ho, hkind, ?_⟩
  intro receipt hreceipt
  rw [hreceipt] at hread
  cases hread

end ZephyrChain.Execution
