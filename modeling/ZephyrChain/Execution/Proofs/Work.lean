/-
The three observations of a settled job agree.

A job settles in one way only (`Splits.unique`), so settling the record
again gives the settlement that was emitted. What is paid is the sum of
the prices of the providers on the accepted root, and both loops add up
just that.
-/
import ZephyrChain.Execution.Proofs.Receipts

namespace ZephyrChain.Execution

open Lib

variable {origin record updated : OnChainJob} {s : OnChainSettlement}

/-- What the results of a job add to its lifecycle: they are for the job,
and the first one is handed in when all providers are assigned. -/
structure Collected (record : OnChainJob) : Prop where
  own : ∀ r ∈ record.results, r.jobID = record.id
  full : record.results ≠ [] →
    record.assignments.length = record.job.requiredAssignments

/-- All providers are assigned when a job takes results. -/
theorem length_assignments (hl : Lifecycle origin record)
    (hstatus : record.status = .assigned ∨
      record.status = .awaitingVerification) :
    record.assignments.length = record.job.requiredAssignments := by
  have hlive : ¬ record.status.Final := by
    rintro (hs | hs)
    · rcases hstatus with h | h <;> cases hs.symm.trans h
    · rcases hstatus with h | h <;> cases hs.symm.trans h
  have hprogress := hl.progress.resolve_left hlive
  rcases hstatus with h | h
  · exact (hprogress.assigned.1 h).1
  · have hlen := hprogress.awaiting.1 h
    have hle := Lifecycle.Reports.length_le ⟨hl.reporters, hl.reported⟩
    have hge := hl.count
    omega

theorem Collected.step (hl : Lifecycle origin record)
    (hc : Collected record) {op : JobOp} {next : OnChainJob}
    (h : op.apply record = .ok next) : Collected next := by
  cases op with
  | assign offerID offer height =>
    simp only [JobOp.apply, assignOnChain, ok_iff] at h
    obtain ⟨_, ⟨_, _, _, hroom, _, _, _, rfl⟩, rfl⟩ := h
    refine ⟨hc.own, fun hsome => ?_⟩
    exact absurd (hc.full hsome).ge hroom
  | submit result =>
    simp only [JobOp.apply, submitOnChainResult, ok_iff, not_not] at h
    obtain ⟨_, hown, hstatus, _, _, _, rfl⟩ := h
    refine ⟨?_, fun _ => ?_⟩
    · exact forall_mem_concat hc.own hown
    · show record.assignments.length = record.job.requiredAssignments
      rw [not_and_or, not_not, not_not] at hstatus
      exact length_assignments hl hstatus
  | finalize evidence =>
    simp only [JobOp.apply, ok_iff] at h
    obtain ⟨⟨next', s'⟩, hout, rfl⟩ := h
    rw [(finalizeOnChain_record hout).2]
    exact ⟨hc.own, hc.full⟩
  | resolve =>
    simp only [JobOp.apply, ok_iff] at h
    obtain ⟨⟨next', s'⟩, hout, rfl⟩ := h
    rw [resolveReplicatedMajority_record hout]
    exact ⟨hc.own, hc.full⟩
  | expire height =>
    simp only [JobOp.apply, ok_iff] at h
    obtain ⟨⟨next', s'⟩, hout, rfl⟩ := h
    rw [(expireOnChain_record hout).2]
    exact ⟨hc.own, hc.full⟩

theorem collected_run {steps : List JobStep}
    (h : Lifecycle origin origin) (hempty : origin.results = [])
    (hrun : JobRun origin steps record) : Collected record := by
  induction hrun with
  | nil =>
    refine ⟨fun r hr => ?_, fun hsome => absurd hempty hsome⟩
    rw [hempty] at hr
    cases hr
  | snoc hrun hstep ih => exact ih.step (h.run hrun).1 hstep

-- ==== one settlement

/-- A job settles in one way. -/
theorem Splits.unique {s' : OnChainSettlement} (h : Splits record s)
    (h' : Splits record s') : s' = s := by
  obtain ⟨hpay, hrefund, hreturns, hroot⟩ := h.agree h'
  have hslashed : s'.slashedCollateral = s.slashedCollateral := by
    rw [h'.slashed, h.slashed, hroot]
  have hreward : s'.slashReward = s.slashReward := by
    have h1 := h'.slashReward
    rw [hroot, ← h.slashReward] at h1
    exact UInt64.toNat_inj.1 h1
  have hid : s'.jobID = s.jobID := h'.jobID.trans h.jobID.symm
  cases s
  cases s'
  simp only at hpay hrefund hreturns hroot hslashed hreward hid
  subst hpay hrefund hreturns hroot hslashed hreward hid
  rfl

variable {majority : Bool}

/-- A settlement leaves the record as it was but for its status, and is
for replicated jobs. -/
theorem settlementOf_record
    (h : settlementOf record majority = .ok (updated, s)) :
    updated = { record with status := .settled } ∧
      record.job.verification = .replicated := by
  cases majority with
  | true =>
    have hmode := h
    simp only [settlementOf, if_true, resolveReplicatedMajority, ok_iff,
      not_or, not_not] at hmode
    exact ⟨resolveReplicatedMajority_record h, hmode.1.1⟩
  | false =>
    simp only [settlementOf, Bool.false_eq_true, if_false, ok_iff,
      not_not] at h
    exact ⟨(finalizeOnChain_record h.2).2, h.1⟩

/-- A job that is settled was waiting for it. -/
theorem settlementOf_awaiting (hl : Lifecycle origin record)
    (hc : Collected record) (hlive : ¬ record.status.Final)
    (h : settlementOf record majority = .ok (updated, s)) :
    record.status = .awaitingVerification := by
  cases majority with
  | true =>
    simp only [settlementOf, if_true, resolveReplicatedMajority, ok_iff,
      not_or, not_not] at h
    obtain ⟨⟨_, hmany, hall⟩, _⟩ := h
    have hsome : record.results ≠ [] := by
      intro hnil
      rw [hnil] at hmany
      exact hmany (by decide)
    have hfull := hc.full hsome
    exact (hl.progress.resolve_left hlive).awaiting.2 (hall.trans hfull)
  | false =>
    simp only [settlementOf, Bool.false_eq_true, if_false, ok_iff] at h
    exact (finalizeOnChain_record h.2).1

-- ==== the loops

/-- The results of different providers are all read. -/
theorem reportSteps {id : JobID} (results : List ComputeResult)
    (reported : AList fun _ : AccountID => Hash)
    (hnodup : (results.map ComputeResult.provider).Nodup)
    (h : ∀ r ∈ results, r.validate = .ok () ∧ r.jobID = id ∧
      r.provider ∉ reported) :
    ∃ m, results.foldlM (reportStep id) reported = .ok m ∧
      (∀ r ∈ results, m.lookup r.provider = some r.resultRoot) ∧
      ∀ provider ∈ reported,
        m.lookup provider = reported.lookup provider := by
  induction results generalizing reported with
  | nil => exact ⟨reported, rfl, fun r hr => by (cases hr), fun _ _ => rfl⟩
  | cons first rest ih =>
    obtain ⟨hfirst, hrest⟩ := List.nodup_cons.1 hnodup
    obtain ⟨hvalid, hid, hnew⟩ := h first List.mem_cons_self
    have hstep : reportStep id reported first =
        .ok (reported.insert first.provider first.resultRoot) := by
      rw [reportStep, hvalid, failWith_ok, ok_bind,
        refuse_of_not _ (not_not.2 hid), ok_bind, refuse_of_not _ hnew]
      rfl
    obtain ⟨m, hm, hread, hold⟩ := ih
      (reported.insert first.provider first.resultRoot) hrest
      fun r hr => by
        obtain ⟨hvalid, hid, hnew⟩ := h r (List.mem_cons_of_mem _ hr)
        refine ⟨hvalid, hid, ?_⟩
        rw [AList.mem_insert, not_or]
        exact ⟨fun heq => hfirst (heq ▸ List.mem_map_of_mem hr), hnew⟩
    refine ⟨m, ?_, ?_, ?_⟩
    · rw [List.foldlM_cons, hstep, ok_bind]
      exact hm
    · intro r hr
      rcases List.mem_cons.1 hr with rfl | hr
      · rw [hold _ ((AList.mem_insert _).2 (.inl rfl)), AList.lookup_insert]
      · exact hread r hr
    · intro provider hprovider
      have hne : provider ≠ first.provider :=
        fun heq => hnew (heq ▸ hprovider)
      rw [hold _ ((AList.mem_insert _).2 (.inr hprovider)),
        AList.lookup_insert_ne hne]

/-- The prices of those on the root. -/
def rootPrices (record : OnChainJob) (root : Hash) (as : List Assignment) :
    Nat :=
  ((as.filter fun a => Reported record root a).map
    fun a => a.price.toNat).sum

/-- The loop over the assignments adds up the prices on the root. -/
theorem paidSteps {root : Hash} {m : AList fun _ : AccountID => Hash}
    (as : List Assignment) (paid : UInt64) (seen : List AccountID)
    (hnodup : (as.map Assignment.provider).Nodup)
    (hseen : ∀ a ∈ as, a.provider ∉ seen)
    (h : ∀ a ∈ as, a.price ≠ 0 ∧ ∃ reported,
      m.lookup a.provider = some reported ∧
        (reported = root ↔ Reported record root a))
    (hfits : paid.toNat + rootPrices record root as < 2 ^ 64) :
    ∃ out, as.foldlM (paidStep .replicated root m) (paid, seen) =
      .ok out ∧ out.1.toNat = paid.toNat + rootPrices record root as := by
  induction as generalizing paid seen with
  | nil => exact ⟨(paid, seen), rfl, rfl⟩
  | cons a as ih =>
    obtain ⟨hfirst, hrest⟩ := List.nodup_cons.1 hnodup
    obtain ⟨hprice, reported, hlookup, hroot⟩ := h a List.mem_cons_self
    have hseen' : ∀ b ∈ as, b.provider ∉ a.provider :: seen := by
      intro b hb hmem
      rcases List.mem_cons.1 hmem with heq | hmem
      · exact hfirst (heq ▸ List.mem_map_of_mem hb)
      · exact hseen b (List.mem_cons_of_mem _ hb) hmem
    have hguard : ¬ (a.provider ∈ seen ∨ a.price = 0) :=
      not_or.2 ⟨hseen a List.mem_cons_self, hprice⟩
    have hrest' : ∀ b ∈ as, b.price ≠ 0 ∧ ∃ reported,
        m.lookup b.provider = some reported ∧
          (reported = root ↔ Reported record root b) :=
      fun b hb => h b (List.mem_cons_of_mem _ hb)
    rw [List.foldlM_cons]
    by_cases hon : Reported record root a
    · have hsum : rootPrices record root (a :: as) =
          a.price.toNat + rootPrices record root as := by
        simp [rootPrices, hon]
      rw [hsum] at hfits ⊢
      have hno : ¬ Overflows paid a.price := not_overflows_iff.2 (by omega)
      have hadd := toNat_add_of_fits hno
      have hagrees : ¬ (VerificationMode.replicated = .replicated ∧
          reported ≠ root) := fun hbad => hbad.2 (hroot.2 hon)
      have hstep : paidStep .replicated root m (paid, seen) a =
          .ok (paid + a.price, a.provider :: seen) := by
        rw [paidStep, refuse_of_not _ hguard, ok_bind, hlookup]
        show (if _ then _ else _) = _
        rw [if_neg hagrees, refuse_of_not _ hno]
        rfl
      obtain ⟨out, hout, htotal⟩ := ih (paid + a.price)
        (a.provider :: seen) hrest hseen' hrest' (by omega)
      rw [hstep, ok_bind]
      exact ⟨out, hout, by omega⟩
    · have hsum : rootPrices record root (a :: as) =
          rootPrices record root as := by
        simp [rootPrices, hon]
      rw [hsum] at hfits ⊢
      have hdiffers : VerificationMode.replicated = .replicated ∧
          reported ≠ root := ⟨rfl, fun heq => hon (hroot.1 heq)⟩
      have hstep : paidStep .replicated root m (paid, seen) a =
          .ok (paid, a.provider :: seen) := by
        rw [paidStep, refuse_of_not _ hguard, ok_bind, hlookup]
        exact if_pos hdiffers
      obtain ⟨out, hout, htotal⟩ := ih paid (a.provider :: seen) hrest
        hseen' hrest' hfits
      rw [hstep, ok_bind]
      exact ⟨out, hout, htotal⟩

-- ==== the three views

/-- Settling the record again gives the settlement. -/
theorem settledAgain (hl : Lifecycle origin record)
    (hv : record.validate = .ok ())
    (h : settlementOf record majority = .ok (updated, s)) :
    settleAgain record = .ok (updated, s) := by
  have hsplits := splits_settlementOf hl hv h
  have hrecord := (settlementOf_record h).1
  unfold settleAgain
  rw [← noEvidence]
  cases hfinal : finalizeOnChain record noEvidence with
  | ok out =>
    obtain ⟨updated', s'⟩ := out
    have hsame := hsplits.unique (splits_finalize hl hfinal)
    show Except.ok (updated', s') = .ok (updated, s)
    rw [hsame, hrecord, (finalizeOnChain_record hfinal).2]
  | error _ =>
    cases majority with
    | true => exact h
    | false =>
      simp only [settlementOf, Bool.false_eq_true, if_false, ok_iff,
        hfinal] at h
      cases h.2

variable {registry : WorkRegistry} {spec : WorkSpec}

/-- What a registry holds was checked when it was registered. -/
theorem validate_of_registered {specs : List WorkSpec}
    (h : WorkRegistry.new specs = .ok registry) {workload : Hash}
    (hspec : registry.lookup workload = some spec) :
    spec.validate = .ok () := by
  have hstep : ∀ (r : WorkRegistry) new r',
      (∀ w spec, r.lookup w = some spec → spec.validate = .ok ()) →
      r.register new = .ok r' →
      ∀ w spec, r'.lookup w = some spec → spec.validate = .ok () := by
    intro r new r' hall hr w spec hw
    simp only [WorkRegistry.register, ok_iff] at hr
    obtain ⟨hnew, hr⟩ := hr
    split at hr
    · simp only [ok_iff] at hr
      rw [← hr.2] at hw
      exact hall w spec hw
    · rw [← (pure_eq_ok _ _).1 hr] at hw
      by_cases hown : w = new.workloadHash
      · rw [hown, AList.lookup_insert] at hw
        exact Option.some.inj hw ▸ hnew
      · rw [AList.lookup_insert_ne hown] at hw
        exact hall w spec hw
  have hempty : ∀ w spec, (∅ : WorkRegistry).lookup w = some spec →
      spec.validate = .ok () := by
    intro w spec hw
    rw [AList.lookup_empty] at hw
    cases hw
  exact foldlM_invariant _ hstep specs ∅ registry hempty h workload spec
    hspec

theorem registeredSpec_eq {workload : Hash}
    (hspec : registry.lookup workload = some spec)
    (hvalid : spec.validate = .ok ()) :
    registeredSpec (some registry) workload = .ok spec := by
  simp only [registeredSpec, resolve, Option.bind_some, hspec, require,
    ok_bind, hvalid, failWith_ok]
  rfl

/-- What a settlement pays fits and is not nothing. -/
theorem Splits.paid (hl : Lifecycle origin record)
    (hv : record.validate = .ok ()) (h : Splits record s) :
    s.payments.total = rootPrices record s.resultRoot record.assignments ∧
      0 < s.payments.total ∧ s.payments.total ≤ record.escrow.toNat := by
  have htotal : s.payments.total =
      rootPrices record s.resultRoot record.assignments := by
    rw [h.payments, total_owed (nodup_onRoot hl s.resultRoot)]
    rfl
  have hrefund : s.refund.toNat +
      rootPrices record s.resultRoot record.assignments =
        record.escrow.toNat := h.refund
  obtain ⟨r, hr, hroot⟩ := majority_reported h.majority
  obtain ⟨a, ha, heq⟩ := hl.reported r hr
  have hon : a ∈ onRoot record s.resultRoot :=
    List.mem_filter.2 ⟨ha, decide_eq_true ⟨r, hr, heq.symm, hroot⟩⟩
  have hle : a.price.toNat ≤
      rootPrices record s.resultRoot record.assignments :=
    List.single_le_sum (fun _ _ => Nat.zero_le _) _
      (List.mem_map_of_mem hon)
  have hprice : a.price.toNat ≠ 0 :=
    fun hzero => (validate_provider hv ha).2 (UInt64.toNat_inj.1 hzero)
  omega

theorem observeVerifiedWork_eq (hl : Lifecycle origin record)
    (hv : record.validate = .ok ()) (h : Splits record s)
    (hspec : registry.lookup record.job.workloadHash = some spec)
    (hvalid : spec.validate = .ok ()) :
    ∃ paid : UInt64, paid.toNat = s.payments.total ∧
      observeVerifiedWork { record with status := .settled } s
        (some registry) = .ok (observation record spec paid s.resultRoot) := by
  obtain ⟨_, hpos, hle⟩ := h.paid hl hv
  have hlt := record.escrow.toNat_lt
  have hentries : ((s.payments.entries.map Sigma.snd).map
      UInt64.toNat).sum = s.payments.total := by
    rw [List.map_map]
    rfl
  obtain ⟨paid, hpaid⟩ := @sumChecked_of_fits .invalidWorkSettlement
    (s.payments.entries.map Sigma.snd) (by omega)
  have hsum := sumChecked_eq_ok hpaid
  rw [hentries] at hsum
  have hroot := root_ne_zero hv h.majority
  refine ⟨paid, hsum, ?_⟩
  have hnonzero : paid ≠ 0 := by
    rintro rfl
    rw [UInt64.toNat_zero] at hsum
    omega
  have hresolve := registeredSpec_eq hspec hvalid
  rw [observeVerifiedWork, refuse_of_not _ (by simp [h.jobID]; exact hroot),
    ok_bind, hresolve, ok_bind, hpaid, ok_bind, refuse_of_not _ hnonzero]
  rfl

theorem observeSettledRecord_eq (hl : Lifecycle origin record)
    (hv : record.validate = .ok ()) (hc : Collected record)
    (h : Splits record s)
    (hall : record.assignments.length ≤ record.results.length)
    (hmode : record.job.verification = .replicated)
    (hspec : registry.lookup record.job.workloadHash = some spec)
    (hvalid : spec.validate = .ok ()) :
    ∃ paid : UInt64, paid.toNat = s.payments.total ∧
      observeSettledRecord { record with status := .settled }
        (some registry) = .ok (observation record spec paid s.resultRoot) := by
  obtain ⟨htotal, hpos, hle⟩ := h.paid hl hv
  have hlt := record.escrow.toNat_lt
  have hsome : record.results ≠ [] := by
    obtain ⟨r, hr, _⟩ := majority_reported h.majority
    exact List.ne_nil_of_mem hr
  have hassigned : record.assignments ≠ [] := by
    obtain ⟨r, hr, _⟩ := majority_reported h.majority
    obtain ⟨a, ha, _⟩ := hl.reported r hr
    exact List.ne_nil_of_mem ha
  obtain ⟨m, hm, hread, _⟩ := @reportSteps record.id record.results
    ∅ hl.reporters fun r hr =>
      ⟨(OnChainJob.validate_eq_ok hv).2.2 r hr, hc.own r hr,
        AList.notMem_empty _⟩
  have hreported : ∀ a ∈ record.assignments, a.price ≠ 0 ∧ ∃ reported,
      m.lookup a.provider = some reported ∧
        (reported = s.resultRoot ↔ Reported record s.resultRoot a) := by
    intro a ha
    obtain ⟨r, hr, heq⟩ := exists_result hl hall ha
    refine ⟨(validate_provider hv ha).2, r.resultRoot, heq ▸ hread r hr, ?_⟩
    constructor
    · exact fun hroot => ⟨r, hr, heq, hroot⟩
    · rintro ⟨r', hr', heq', hroot⟩
      rw [List.inj_on_of_nodup_map hl.reporters hr hr' (heq.trans heq'.symm)]
      exact hroot
  obtain ⟨out, hout, hpaid⟩ := paidSteps record.assignments 0 []
    hl.providers (fun _ _ => List.not_mem_nil) hreported
    (by rw [UInt64.toNat_zero]; omega)
  rw [UInt64.toNat_zero, Nat.zero_add, ← htotal] at hpaid
  have hfits : ¬ (out.1 = 0 ∨ record.escrow < out.1) := by
    rintro (hzero | hmore)
    · rw [hzero, UInt64.toNat_zero] at hpaid
      omega
    · rw [UInt64.lt_iff_toNat_lt] at hmore
      omega
  have hmost := majorityRoot_of_majority h.majority
  have hroot := root_ne_zero hv h.majority
  refine ⟨out.1, hpaid, ?_⟩
  rw [observeSettledRecord, refuse_of_not _ (by simp [hassigned, hsome]),
    ok_bind, registeredSpec_eq hspec hvalid, ok_bind, hm, ok_bind]
  simp only [hmost, hmode, if_true]
  rw [refuse_of_not _ hroot, ok_bind,
    refuse_of_not _ (Nat.not_le.2 h.majority), ok_bind, hout, ok_bind,
    refuse_of_not _ hfits]
  simp only [observation, hmode]
  rfl

/-- All three observations of a settled job are there and are one, and
what it reports as paid is the sum of the payments of the receipt. -/
theorem work_views_agree (hl : Lifecycle origin record)
    (hv : record.validate = .ok ()) (hc : Collected record)
    (hlive : ¬ record.status.Final) {majority : Bool}
    (h : settlementOf record majority = .ok (updated, s))
    {specs : List WorkSpec} {registry : WorkRegistry}
    (hregistry : WorkRegistry.new specs = .ok registry) {spec : WorkSpec}
    (hspec : registry.lookup record.job.workloadHash = some spec) :
    ∃ work,
      observeFinalizedSettlement record (s.receipt record.id)
        (some registry) = .ok work ∧
      observeVerifiedWork updated s (some registry) = .ok work ∧
      observeSettledRecord updated (some registry) = .ok work ∧
      work.paidZPH.toNat = (s.receipt record.id).payments.total := by
  have hsplits := splits_settlementOf hl hv h
  have hvalid := validate_of_registered hregistry hspec
  have hstatus := settlementOf_awaiting hl hc hlive h
  have hagain := settledAgain hl hv h
  obtain ⟨hrecord, hmode⟩ := settlementOf_record h
  have hall : record.assignments.length ≤ record.results.length := by
    rw [((hl.progress.resolve_left hlive).awaiting.1 hstatus)]
    exact hl.count
  obtain ⟨paid, hpaid, hverified⟩ :=
    observeVerifiedWork_eq hl hv hsplits hspec hvalid
  obtain ⟨paid', hpaid', hsettled⟩ :=
    observeSettledRecord_eq hl hv hc hsplits hall hmode hspec hvalid
  obtain rfl : paid = paid' := UInt64.toNat_inj.1 (hpaid.trans hpaid'.symm)
  rw [← hrecord] at hverified hsettled
  refine ⟨_, ?_, hverified, hsettled, hpaid⟩
  have hfinal : observeFinalizedSettlement record (s.receipt record.id)
      (some registry) = observeVerifiedWork updated s (some registry) := by
    unfold observeFinalizedSettlement
    rw [refuse_of_not _ (by simp [OnChainSettlement.receipt, hstatus]),
      ok_bind]
    rw [hagain, failWith_ok, ok_bind]
    exact congrArg (· >>= _) (refuse_of_not _ (by simp))
  rw [hfinal]
  exact hverified

-- ==== a sample

/-- Five units for the workload of the job with a dissenter. -/
def dissentSpec : WorkSpec :=
  ⟨1, 1, 5, dissentRecord.job.workloadHash, Vector.replicate 32 1,
    ⟨1, 0, 0, 0, 0, 0, 0, 0⟩⟩

def dissentRegistry : WorkRegistry :=
  AList.insert dissentSpec.workloadHash dissentSpec ∅

theorem registered_dissentSpec :
    WorkRegistry.new [dissentSpec] = .ok dissentRegistry := by
  have hvalid : dissentSpec.validate = .ok () := by
    decide +kernel
  rw [WorkRegistry.new, List.foldlM_cons, WorkRegistry.register, hvalid,
    failWith_ok, ok_bind, AList.lookup_empty]
  rfl

theorem collected_dissentRecord : Collected dissentRecord := by
  have hfold : dissentOps.foldlM JobOp.apply openRecord =
      .ok dissentRecord := by
    decide +kernel
  obtain ⟨steps, hrun, -⟩ := JobRun.of_foldlM hfold
  exact collected_run lifecycle_openRecord rfl hrun

theorem dissent_settles :
    ∃ out, settlementOf dissentRecord true = .ok out := by
  have hsome : (settlementOf dissentRecord true).isOk = true := by
    decide +kernel
  exact exists_of_isOk hsome

/-- The job with a dissenter is observed as settled. -/
theorem work_views_dissent : ∃ updated s work,
    settlementOf dissentRecord true = .ok (updated, s) ∧
      observeSettledRecord updated (some dissentRegistry) = .ok work := by
  obtain ⟨⟨updated, s⟩, hs⟩ := dissent_settles
  obtain ⟨work, _, _, hwork, _⟩ := work_views_agree lifecycle_dissentRecord
    (by decide +kernel) collected_dissentRecord
    (by rintro (h | h) <;> cases h) hs
    registered_dissentSpec (AList.lookup_insert _)
  exact ⟨updated, s, work, hs, hwork⟩

end ZephyrChain.Execution
