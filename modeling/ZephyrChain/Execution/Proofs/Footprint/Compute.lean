/-
The footprints of the compute operations. What they leave is bounded by
the limits of the records they read: a job record has at most 1024
assignments and results when it is read, and gains one by an ingestion.
A settlement pays at most two accounts for each assignment and the owner
of the job.
-/
import ZephyrChain.Execution.Proofs.Footprint.Tokens

namespace ZephyrChain.Execution

open Lib

variable {C : Crypto} {e : Engine} {t : Transaction} {payload : Bytes}
  {r : Result}

-- ==== offers and jobs

theorem Offer.short {offer : Offer} {raw : Bytes}
    (h : offer.marshalBinary = .ok raw) : raw.length ≤ 1048576 := by
  simp only [Offer.marshalBinary, ok_iff] at h
  obtain ⟨hvalid, rfl⟩ := h
  exact (Offer.length_encode_le hvalid).trans (by decide)

theorem OnChainJob.short {j : OnChainJob} {raw : Bytes}
    (ha : j.assignments.length ≤ 1025) (hr : j.results.length ≤ 1025)
    (h : j.marshalBinary = .ok raw) : raw.length ≤ 1048576 := by
  simp only [OnChainJob.marshalBinary, ok_iff] at h
  obtain ⟨hvalid, rfl⟩ := h
  have hjob := Job.length_encode_le (OnChainJob.validate_eq_ok hvalid).1
  have hasort : j.sortedAssignments.length = j.assignments.length :=
    List.length_insertionSort _ _
  have hrsort : j.sortedResults.length = j.results.length :=
    List.length_insertionSort _ _
  have hassign : (j.sortedAssignments.flatMap fun a =>
      Writer.bytes a.encode).length ≤ j.sortedAssignments.length * 76 :=
    length_flatMap_le _ fun a _ => by simp [Assignment.encode]
  have hresult : (j.sortedResults.flatMap fun r =>
      Writer.bytes r.encode).length ≤ j.sortedResults.length * 172 :=
    length_flatMap_le _ fun r _ => by simp [ComputeResult.encode]
  simp only [OnChainJob.encode, List.length_append, Writer.length_fixed,
    Writer.length_bytes, Writer.length_u64, Writer.length_u8,
    Writer.length_u32]
  omega

theorem executeComputeOffer_leaves (hck : Checked C t)
    (h : executeComputeOffer C e t payload = .ok r) : Leaves C t r True := by
  simp only [executeComputeOffer, newOfferObject, ok_iff, not_or,
    not_not] at h
  obtain ⟨offer, _, ⟨hprovider, _⟩, ⟨created, outbound, consumed⟩, hacc, o,
    ⟨raw, hraw, rfl⟩, rfl⟩ := h
  have hspec : (OutputSpec.mk offer.provider .computeOffer raw).validate =
      .ok () :=
    validate_spec (by decide) (hprovider ▸ hck.sender) (Offer.short hraw)
  refine leaves_of_adds hck (moves_of_account hck hacc) takes_nil
    (.single hspec computeOfferObjectIndex) (by decide) [] (by simp) ?_
  simp [Item.object, newObject]

theorem executeComputeJob_leaves (hck : Checked C t)
    (h : executeComputeJob C e t payload = .ok r) : Leaves C t r True := by
  simp only [executeComputeJob, newJobObject, ok_iff, not_or, not_not] at h
  obtain ⟨job, _, ⟨howner, _⟩, ⟨created, outbound, consumed⟩, hacc,
    ⟨o, record⟩, ⟨raw, hraw, ho⟩, h⟩ := h
  simp only [Prod.mk.injEq] at ho
  obtain ⟨rfl, rfl⟩ := ho
  subst h
  have hspec : (OutputSpec.mk job.owner .computeJob raw).validate = .ok () :=
    validate_spec (by decide) (howner ▸ hck.sender)
      (OnChainJob.short (Nat.zero_le _) (Nat.zero_le _) hraw)
  refine leaves_of_adds hck (moves_of_account hck hacc) takes_nil
    (.single hspec computeJobObjectIndex) (by decide) [] (by simp) ?_
  simp [Item.object, newObject]

-- ==== messages

/-- A message is one new object here, or one output for elsewhere. -/
theorem deliver_items (jobShard : UInt32) {spec : OutputSpec}
    (hspec : spec.validate = .ok ()) :
    ∃ items, (deliver C t jobShard spec).1 = items.map (Item.object C t) ∧
      Adds items [computeReceiptIndex] ∧
      ∀ m ∈ (deliver C t jobShard spec).2, m.output.validate = .ok () ∧
        m.destinationShard ≠ t.shardID := by
  unfold deliver
  split
  case isTrue =>
    exact ⟨[.fresh computeReceiptIndex spec], rfl, .single hspec _, by simp⟩
  case isFalse hshard =>
    exact ⟨[], rfl, adds_nil.weaken, sends_single _ hspec hshard⟩

theorem AssignmentMessage.valid_output {m : AssignmentMessage}
    {spec : OutputSpec} (h : m.output = .ok spec) :
    spec.validate = .ok () := by
  simp only [AssignmentMessage.output, AssignmentMessage.marshalBinary,
    ok_iff] at h
  obtain ⟨_, ⟨hvalid, rfl⟩, rfl⟩ := h
  obtain ⟨hoffer, hjob⟩ := AssignmentMessage.validate_eq_ok hvalid
  simp only [AssignmentMessage.validate, ok_iff, not_or] at hvalid
  have hlenOffer := Offer.length_encode_le hoffer
  have hlenJob := Job.length_encode_le hjob
  refine validate_spec (by decide) hvalid.1.2.1 ?_
  simp only [AssignmentMessage.encode, List.length_append,
    Writer.length_fixed, Writer.length_u32, Writer.length_bytes]
  omega

theorem executeComputeAccept_leaves (hck : Checked C t)
    (h : executeComputeAccept C e t payload = .ok r) :
    Leaves C t r True := by
  simp only [executeComputeAccept, ok_iff] at h
  obtain ⟨message, _, _, o, ho, _, ⟨created, outbound, consumed⟩, hacc, spec,
    hspec, rfl⟩ := h
  obtain ⟨hmem, hk⟩ := mem_of_witnessByKind ho
  obtain ⟨items, hkept, hadds, hsent⟩ := deliver_items (C := C) (t := t)
    message.jobShard (AssignmentMessage.valid_output hspec)
  refine leaves_of_adds hck (moves_of_account hck hacc)
    (.single hmem hk (by decide)) hadds (by decide) _ hsent ?_
  simp [hkept]

theorem valid_resultOutput {message : ResultMessage}
    (h : parseResultMessage payload = .ok message) :
    (resultOutput message).validate = .ok () := by
  have hvalid : message.validate = .ok () := by
    simp only [parseResultMessage, ok_iff] at h
    obtain ⟨_, _, hvalid, rfl⟩ := h
    exact hvalid
  have houtput : resultOutput message =
      ⟨message.jobOwner, .computeResult, message.encode⟩ := by
    simp [resultOutput, ResultMessage.output, ResultMessage.marshalBinary,
      hvalid]
  simp only [ResultMessage.validate, ok_iff, not_or] at hvalid
  rw [houtput]
  exact validate_spec (by decide) hvalid.1.2.1
    (by simp [ResultMessage.encode, ComputeResult.encode])

theorem executeComputeResult_leaves (hck : Checked C t)
    (h : executeComputeResult C e t payload = .ok r) :
    Leaves C t r True := by
  simp only [executeComputeResult, ok_iff] at h
  obtain ⟨message, hmessage, _, ⟨created, outbound, consumed⟩, hacc, rfl⟩ :=
    h
  obtain ⟨items, hkept, hadds, hsent⟩ := deliver_items (C := C) (t := t)
    message.jobShard (valid_resultOutput hmessage)
  refine leaves_of_adds hck (moves_of_account hck hacc) takes_nil hadds
    (by decide) _ hsent ?_
  simp [hkept]

-- ==== ingestion

variable {o : Object}

/-- An ingestion takes a message and rewrites the job, which is the only
job among its witnesses. -/
theorem leaves_of_ingest (hck : Checked C t) {m : Object} {kind : Kind}
    {ref ref' : ObjectID} {inn out : UInt64} {created : List Object}
    {outbound : List OutboundOutput} {consumed : List ObjectID} {raw : Bytes}
    (ho : ownedWitness t ref .computeJob = .ok o)
    (hm : ownedWitness t ref' kind = .ok m)
    (hkind : kind ≠ .system ∧ kind ≠ .unknown ∧ kind ≠ .coin)
    (hne : kind ≠ .computeJob)
    (hacc : accountNativeValue C e t [o.id, m.id] inn out =
      .ok (created, outbound, consumed)) (hshort : raw.length ≤ 1048576) :
    Leaves C t ⟨consumed ++ [o.id, m.id], created ++ [rewrite o raw],
        outbound, t.id C⟩
      (∀ o ∈ t.objects, o.kind = .computeJob → Renewable o) := by
  obtain ⟨hmem, hk⟩ := ownedWitness_eq_ok ho
  obtain ⟨hmmem, hmk⟩ := ownedWitness_eq_ok hm
  have hdiffer : o ∉ [m] := by
    intro hom
    rw [List.mem_singleton.1 hom, hmk] at hk
    exact hne hk
  refine leaves_of_renewal hck (moves_of_account hck hacc)
    ((Takes.single hmmem hmk hkind).cons hmem hdiffer hk (by decide)) hk ?_
    hshort adds_nil (by decide) rfl
  intro o' ho' hex hk'
  rcases List.mem_cons.1 hex with hid | hid
  · exact hck.eq_of_id hmem ho' hid
  · rw [hck.eq_of_id hmmem ho' (List.mem_singleton.1 hid), hmk] at hk'
    exact absurd hk' hne

theorem executeComputeIngestAssignment_leaves (hck : Checked C t)
    (h : executeComputeIngestAssignment C e t payload = .ok r) :
    Leaves C t r
      (∀ o ∈ t.objects, o.kind = .computeJob → Renewable o) := by
  simp only [executeComputeIngestAssignment, ok_iff] at h
  obtain ⟨ref, _, o, ho, m, hm, record, hrecord, message, _, _, _,
    ⟨updated, rest⟩, hassign, raw, hraw, ⟨created, outbound, consumed⟩,
    hacc, rfl⟩ := h
  obtain ⟨_, _, hmore, hresults⟩ := assignOnChain_eq_ok hassign
  obtain ⟨hassignments, hcount⟩ := (parseOnChainJob_iff.1 hrecord).2.2
  have hshort : raw.length ≤ 1048576 :=
    OnChainJob.short (by rw [hmore]; omega) (by rw [hresults]; omega) hraw
  exact leaves_of_ingest hck ho hm (by decide) (by decide) hacc hshort

theorem executeComputeIngestResult_leaves (hck : Checked C t)
    (h : executeComputeIngestResult C e t payload = .ok r) :
    Leaves C t r
      (∀ o ∈ t.objects, o.kind = .computeJob → Renewable o) := by
  simp only [executeComputeIngestResult, ok_iff] at h
  obtain ⟨ref, _, o, ho, m, hm, record, hrecord, message, _, _, updated,
    hsubmit, ⟨created, outbound, consumed⟩, hacc, rfl⟩ := h
  obtain ⟨_, _, hassign, hmore, hvalid⟩ := submitOnChainResult_eq_ok hsubmit
  obtain ⟨hassignments, hcount⟩ := (parseOnChainJob_iff.1 hrecord).2.2
  have hraw : updated.marshalBinary = .ok (recordBytes updated) := by
    have hwritten := hvalid (parseOnChainJob_iff.1 hrecord).2.1
    simp [recordBytes, OnChainJob.marshalBinary, hwritten]
  have hshort : (recordBytes updated).length ≤ 1048576 :=
    OnChainJob.short (by rw [hassign]; omega) (by rw [hmore]; omega) hraw
  exact leaves_of_ingest hck ho hm (by decide) (by decide) hacc hshort

-- ==== settlement

/-- One more account at most. -/
theorem Amounts.length_add_le (m : Amounts) (id : AccountID)
    (value : UInt64) : (m.add id value).keys.length ≤ m.keys.length + 1 := by
  have hsubset : (m.add id value).keys ⊆ id :: m.keys := by
    intro k hk
    have hk' : k ∈ m.insert id (m.get id + value) := hk
    exact List.mem_cons.2 ((AList.mem_insert m).1 hk')
  exact ((AList.keys_nodup _).subperm hsubset).length_le

theorem Amounts.length_foldl_le {α : Type} (xs : List α)
    (id : α → AccountID) (value : α → UInt64) (m : Amounts) :
    (xs.foldl (fun m a => m.add (id a) (value a)) m).keys.length ≤
      m.keys.length + xs.length := by
  induction xs generalizing m with
  | nil => exact Nat.le_refl _
  | cons a xs ih =>
    have hadd := Amounts.length_add_le m (id a) (value a)
    have hrest := ih (m.add (id a) (value a))
    rw [List.foldl_cons, List.length_cons]
    omega

/-- A settlement names at most `n` accounts on each side. -/
structure Bounded (n : Nat) (s : OnChainSettlement) : Prop where
  payments : s.payments.keys.length ≤ n
  collateralReturns : s.collateralReturns.keys.length ≤ n
  slashed : s.slashedCollateral.keys.length ≤ n

variable {record : OnChainJob} {s : OnChainSettlement}
variable {updated : OnChainJob}

theorem finalizeOnChain_bounded {evidence : VerificationEvidence}
    (h : finalizeOnChain record evidence = .ok (updated, s)) :
    Bounded record.assignments.length s := by
  simp only [finalizeOnChain, ok_iff] at h
  obtain ⟨_, _, paid, _, _, h⟩ := h
  cases h
  refine ⟨?_, ?_, Nat.zero_le _⟩
  · exact (Amounts.length_foldl_le _ _ _ _).trans (Nat.zero_add _).le
  · exact (Amounts.length_foldl_le _ _ _ _).trans (Nat.zero_add _).le

theorem resolveReplicatedMajority_bounded
    (h : resolveReplicatedMajority record = .ok (updated, s)) :
    Bounded record.assignments.length s := by
  simp only [resolveReplicatedMajority, ok_iff] at h
  obtain ⟨_, _, totals, hloop, _, h⟩ := h
  cases h
  have hall : totals.payments.keys.length ≤ record.assignments.length ∧
      totals.collateralReturns.keys.length ≤ record.assignments.length ∧
      totals.slashed.keys.length ≤ record.assignments.length := by
    refine foldlM_prefix (P := fun pre s =>
      s.payments.keys.length ≤ pre.length ∧
        s.collateralReturns.keys.length ≤ pre.length ∧
        s.slashed.keys.length ≤ pre.length) ?_ ?_ hloop
    · exact ⟨Nat.le_refl _, Nat.le_refl _, Nat.le_refl _⟩
    · rintro pre a s s' - ⟨hpay, hret, hslash⟩ hstep
      rw [List.length_append, List.length_singleton]
      simp only [majorityStep] at hstep
      split at hstep
      case isTrue =>
        simp only [ok_iff] at hstep
        obtain ⟨_, rfl⟩ := hstep
        exact ⟨(Amounts.length_add_le _ _ _).trans (Nat.succ_le_succ hpay),
          (Amounts.length_add_le _ _ _).trans (Nat.succ_le_succ hret),
          hslash.trans (Nat.le_succ _)⟩
      case isFalse =>
        simp only [ok_iff] at hstep
        obtain ⟨_, rfl⟩ := hstep
        exact ⟨hpay.trans (Nat.le_succ _), hret.trans (Nat.le_succ _),
          (Amounts.length_add_le _ _ _).trans (Nat.succ_le_succ hslash)⟩
  exact ⟨hall.1, hall.2.1, hall.2.2⟩

theorem settlementOf_bounded {majority : Bool}
    (h : settlementOf record majority = .ok (updated, s)) :
    Bounded record.assignments.length s := by
  unfold settlementOf at h
  split at h
  · exact resolveReplicatedMajority_bounded h
  · simp only [ok_iff] at h
    exact finalizeOnChain_bounded h.2

variable {n : Nat}

theorem settlementAmounts_bounded (hs : Bounded n s) {amounts : Amounts}
    (h : settlementAmounts record s = .ok amounts) :
    amounts.keys.length ≤ 2 * n + 1 := by
  simp only [settlementAmounts, ok_iff] at h
  obtain ⟨both, hboth, _, rfl⟩ := h
  have hpaid := Amounts.length_foldl_le s.payments.entries Sigma.fst
    Sigma.snd ∅
  have hlen : both.keys.length ≤ (s.payments.entries.foldl
      (fun (m : Amounts) entry => m.add entry.1 entry.2) ∅).keys.length +
        s.collateralReturns.entries.length := by
    refine foldlM_prefix (P := fun pre (m : Amounts) => m.keys.length ≤ _ +
      pre.length) (Nat.le_refl _) ?_ hboth
    intro pre entry m m' _ hm hstep
    simp only [ok_iff] at hstep
    obtain ⟨_, rfl⟩ := hstep
    rw [List.length_append, List.length_singleton]
    exact (Amounts.length_add_le _ _ _).trans (Nat.succ_le_succ hm)
  have hpayments : s.payments.entries.length ≤ n := by
    rw [← List.length_map Sigma.fst]
    exact hs.payments
  have hreturns : s.collateralReturns.entries.length ≤ n := by
    rw [← List.length_map Sigma.fst]
    exact hs.collateralReturns
  have hempty : (∅ : Amounts).keys.length = 0 := rfl
  split
  · have hadd := Amounts.length_add_le both record.job.owner
      (s.refund + s.slashReward)
    omega
  · omega

/-- The coins of a settlement have indices of their own. -/
theorem settlementOutputs_placed (hs : Bounded n s) (hn : n ≤ 1025)
    {c : Change} (h : settlementOutputs C e t record s = .ok c) :
    ∃ items, Placed C t (computeReceiptIndex.toNat + 1) (2 ^ 32) c.created
      c.outbound items := by
  simp only [settlementOutputs, bind_eq_ok] at h
  obtain ⟨amounts, hamounts, hloop⟩ := h
  have hkeys := settlementAmounts_bounded hs hamounts
  have hlen : (amounts.keys.insertionSort Bytes32.Before).length ≤
      2 * n + 1 := by
    rwa [List.length_insertionSort]
  have hindex : computeReceiptIndex.toNat = 0xC0000000 := rfl
  have hplaced : ∃ items, Placed C t (computeReceiptIndex.toNat + 1)
      (computeReceiptIndex.toNat + 1 +
        (amounts.keys.insertionSort Bytes32.Before).length) c.created
      c.outbound items := by
    have hstart : (id ⟨0, [], []⟩ : Change) = ⟨0, [], []⟩ := rfl
    refine placed_foldlM _ hstart (by omega) ?_ hloop
    intro s id i s' _ hstep
    simp only [payStep, newCoinOutput, ok_iff] at hstep
    obtain ⟨_, spec, hspec, destination, _, rfl⟩ := hstep
    exact ⟨spec, destination, _, newCoinOutputAtHeight_valid hspec, rfl⟩
  obtain ⟨items, hitems⟩ := hplaced
  exact ⟨items, hitems.mono (by omega)⟩

theorem Amounts.length_encode_le {m : Amounts} (h : m.keys.length ≤ n) :
    m.encode.length ≤ 4 + n * 40 := by
  have hrow : ((m.keys.insertionSort Bytes32.Before).flatMap fun id =>
      Writer.fixed id ++ Writer.u64 (m.get id)).length ≤
        (m.keys.insertionSort Bytes32.Before).length * 40 :=
    length_flatMap_le _ fun id _ => by simp
  rw [List.length_insertionSort] at hrow
  simp only [Amounts.encode, List.length_append, Writer.length_u32]
  have hmul := Nat.mul_le_mul_right 40 h
  omega

theorem SettlementReceipt.short {receipt : SettlementReceipt}
    (hp : receipt.payments.keys.length ≤ 1025)
    (hs : receipt.slashed.keys.length ≤ 1025) :
    receipt.marshalBinary.length ≤ 1048576 := by
  have hpay := Amounts.length_encode_le hp
  have hslash := Amounts.length_encode_le hs
  simp only [SettlementReceipt.marshalBinary, List.length_append,
    Writer.length_fixed, Writer.length_u64, Writer.length_bool]
  omega

/-- The payments of a settlement and its receipt, beside the coins. -/
theorem settle_beside {created : List Object}
    {outbound : List OutboundOutput} {items : List Item}
    (spec : OutputSpec)
    (h : Placed C t (computeReceiptIndex.toNat + 1) (2 ^ 32) created
      outbound items) :
    Beside t [o] (items ++ [.fresh computeReceiptIndex spec]) outbound := by
  have hindex : computeReceiptIndex.toNat = 0xC0000000 := rfl
  have hmax : maxOutputs = 4096 := rfl
  have hall : ∀ i ∈ items.filterMap Item.index,
      computeReceiptIndex.toNat < i.toNat := by
    intro i hi
    obtain ⟨item, hitem, hi⟩ := List.mem_filterMap.1 hi
    obtain ⟨_, k, spec', rfl, hlow, hhigh⟩ := h.fresh item hitem
    obtain rfl := Option.some.inj hi
    rw [UInt32.toNat_ofNat', Nat.mod_eq_of_lt hhigh]
    omega
  have hbase : (items ++ [Item.fresh computeReceiptIndex spec]).filterMap
      Item.base = [] := by
    refine List.filterMap_eq_nil_iff.2 (List.forall_mem_append.2
      ⟨fun item hitem => ?_, List.forall_mem_singleton.2 rfl⟩)
    obtain ⟨_, k, spec', rfl, _⟩ := h.fresh item hitem
    rfl
  refine ⟨?_, ?_, by rw [hbase]; simp, by rw [hbase]; simp, h.outbound⟩
  · rw [List.filterMap_append]
    refine List.nodup_append.2 ⟨h.indices, List.nodup_singleton _, ?_⟩
    rintro a ha b hb rfl
    obtain rfl := List.mem_singleton.1 hb
    exact Nat.lt_irrefl _ (hall _ ha)
  · rw [List.filterMap_append]
    refine List.forall_mem_append.2 ⟨fun i hi => ?_,
      List.forall_mem_singleton.2 (by decide)⟩
    have hlow := hall i hi
    omega

theorem settle_leaves (hck : Checked C t) {settlement : OnChainSettlement}
    {receipt : SettlementReceipt} (hmem : o ∈ t.objects)
    (hk : o.kind = .computeJob)
    (hrecord : parseOnChainJob o.data = .ok record)
    (hbounded : Bounded record.assignments.length settlement)
    (hpayments : receipt.payments.keys.length ≤ record.assignments.length)
    (hslashed : receipt.slashed.keys.length ≤ record.assignments.length)
    (h : settle C e t o record settlement receipt = .ok r) :
    Leaves C t r True := by
  simp only [settle, ok_iff, not_not] at h
  obtain ⟨locked, _, c, hc, _, ⟨created, outbound, consumed⟩, hacc, rfl⟩ := h
  have hcount := (parseOnChainJob_iff.1 hrecord).2.2.1
  obtain ⟨items, hitems⟩ :=
    settlementOutputs_placed hbounded (by omega) hc
  have hshort : receipt.marshalBinary.length ≤ 1048576 :=
    SettlementReceipt.short (by omega) (by omega)
  have hspec : (OutputSpec.mk Bytes32.zero .system
      receipt.marshalBinary).validate = .ok () :=
    OutputSpec.validate_eq_ok.2 ⟨Kind.noConfusion, hshort, .inl rfl⟩
  have hfits : ∀ i ∈ items ++ [.fresh computeReceiptIndex
      ⟨Bytes32.zero, .system, receipt.marshalBinary⟩], i.Fits :=
    List.forall_mem_append.2 ⟨fun i hi => (hitems.fresh i hi).1,
      List.forall_mem_singleton.2 hspec⟩
  refine leaves_of_moves hck (moves_of_account hck hacc)
    (.single hmem hk (by decide)) (settle_beside _ hitems)
    (iff_true_intro hfits) ?_
  rw [List.map_append, ← hitems.created]
  simp [Item.object]

theorem executeComputeFinalize_leaves (hck : Checked C t) {majority : Bool}
    (h : executeComputeFinalize C e t payload majority = .ok r) :
    Leaves C t r True := by
  simp only [executeComputeFinalize, ok_iff] at h
  obtain ⟨id, _, o, ho, record, hrecord, _, ⟨updated, settlement⟩, hsettle,
    h⟩ := h
  obtain ⟨hmem, hk⟩ := ownedWitness_eq_ok ho
  have hbounded := settlementOf_bounded hsettle
  exact settle_leaves hck hmem hk hrecord hbounded hbounded.payments
    hbounded.slashed h

theorem executeComputeExpire_leaves (hck : Checked C t)
    (h : executeComputeExpire C e t payload = .ok r) :
    Leaves C t r True := by
  simp only [executeComputeExpire, bind_eq_ok] at h
  obtain ⟨id, _, o, ho, record, hrecord, ⟨updated, refund, collateral⟩,
    hexpire, h⟩ := h
  obtain ⟨hmem, hk⟩ := ownedWitness_eq_ok ho
  have hcollateral : collateral.keys.length ≤
      record.assignments.length := by
    simp only [expireOnChain, ok_iff, Prod.mk.injEq] at hexpire
    obtain ⟨_, _, _, rfl⟩ := hexpire
    exact (Amounts.length_foldl_le _ _ _ _).trans (Nat.zero_add _).le
  exact settle_leaves hck hmem hk hrecord
    ⟨Nat.zero_le _, hcollateral, Nat.zero_le _⟩ (Nat.zero_le _)
    (Nat.zero_le _) h

end ZephyrChain.Execution
