/-
The market and the chain keep the same jobs.

The two are written apart: `JobRecord` is changed in place and keeps its
results in a map, `OnChainJob` is a value with a list. `SameJob` relates
them: equal fields, and the same results with no provider twice. Each
call keeps the relation and is accepted by both or by neither, with the
same answer (`JobRecord.agree_assign`, `agree_submit`, `agree_finalize`).

# Map order

`Finalize` takes the result root from whichever result the map yields
first. Only a replicated job can hold more than one result when it is
finalized, and its verification is the agreement of all of them: if they
do not agree the call fails in every order, and if they do the first one
is as good as any other (`commonResultRoot_of_perm`).
-/
import ZephyrChain.Compute.Market
import ZephyrChain.Compute.Proofs.Lifecycle

namespace ZephyrChain

open Lib

-- ==== common roots

theorem foldl_commonRootStep (root : Hash) (same : Bool)
    (rest : List ComputeResult) :
    rest.foldl commonRootStep (some (root, same)) =
      some (root, same && rest.all fun r => r.resultRoot = root) := by
  induction rest generalizing same with
  | nil => rw [List.foldl_nil, List.all_nil, Bool.and_true]
  | cons r rest ih =>
    rw [List.foldl_cons, commonRootStep, ih, List.all_cons]
    by_cases hr : r.resultRoot = root
    · rw [if_pos hr, decide_eq_true hr, Bool.true_and]
    · rw [if_neg hr, decide_eq_false hr, Bool.false_and, Bool.and_false]

/-- The loop compares all results with the first one. -/
theorem commonResultRoot_cons (r : ComputeResult)
    (rest : List ComputeResult) :
    commonResultRoot (r :: rest) =
      (r.resultRoot, rest.all fun x => x.resultRoot = r.resultRoot) := by
  rw [commonResultRoot, List.foldl_cons, commonRootStep,
    foldl_commonRootStep, Bool.true_and, Option.getD_some]

/-- On the chain the same loop runs in provider order. -/
theorem commonResultRootRecord_eq (results : List ComputeResult) :
    commonResultRootRecord results = commonResultRoot
      (results.insertionSort fun a b =>
        Bytes32.Before a.provider b.provider) := by
  unfold commonResultRootRecord
  cases results.insertionSort fun a b =>
      Bytes32.Before a.provider b.provider with
  | nil => rfl
  | cons r rest => rw [commonResultRoot_cons]

variable {results : List ComputeResult}

/-- The results agree when any two of them do. -/
theorem commonResultRoot_agrees :
    (commonResultRoot results).2 = true ↔ results ≠ [] ∧
      ∀ a ∈ results, ∀ b ∈ results, a.resultRoot = b.resultRoot := by
  cases results with
  | nil => exact iff_of_false Bool.false_ne_true fun h => h.1 rfl
  | cons r rest =>
    rw [commonResultRoot_cons, List.all_eq_true]
    constructor
    · intro h
      have hall : ∀ a ∈ r :: rest, a.resultRoot = r.resultRoot := by
        intro a ha
        rcases List.mem_cons.1 ha with rfl | ha
        · rfl
        · exact of_decide_eq_true (h a ha)
      exact ⟨List.cons_ne_nil r rest, fun a ha b hb =>
        (hall a ha).trans (hall b hb).symm⟩
    · intro ⟨_, h⟩ a ha
      exact decide_eq_true
        (h a (List.mem_cons_of_mem r ha) r List.mem_cons_self)

/-- The root is that of some result. -/
theorem commonResultRoot_mem (h : results ≠ []) :
    ∃ r ∈ results, (commonResultRoot results).1 = r.resultRoot := by
  cases results with
  | nil => exact absurd rfl h
  | cons r rest =>
    exact ⟨r, List.mem_cons_self, by rw [commonResultRoot_cons]⟩

/-- Whether the results agree does not depend on the order, and neither
does the root when they do. -/
theorem commonResultRoot_of_perm {xs ys : List ComputeResult}
    (h : xs.Perm ys) :
    (commonResultRoot xs).2 = (commonResultRoot ys).2 ∧
      ((commonResultRoot xs).2 = true →
        (commonResultRoot xs).1 = (commonResultRoot ys).1) := by
  have hnil : xs ≠ [] ↔ ys ≠ [] := not_congr ⟨fun hxs => by
    rw [hxs] at h
    exact h.nil_eq.symm, fun hys => by
    rw [hys] at h
    exact h.eq_nil⟩
  refine ⟨?_, ?_⟩
  · rw [Bool.eq_iff_iff, commonResultRoot_agrees, commonResultRoot_agrees,
      hnil]
    simp only [h.mem_iff]
  · intro hsame
    obtain ⟨hne, hall⟩ := commonResultRoot_agrees.1 hsame
    obtain ⟨a, ha, hxs⟩ := commonResultRoot_mem hne
    obtain ⟨b, hb, hys⟩ := commonResultRoot_mem (hnil.1 hne)
    rw [hxs, hys]
    exact hall a ha b (h.mem_iff.2 hb)

theorem verificationSatisfied_of_perm (mode : VerificationMode)
    (same : Bool) {xs ys : List ComputeResult} (h : xs.Perm ys)
    (evidence : VerificationEvidence) :
    verificationSatisfied mode same xs evidence =
      verificationSatisfied mode same ys evidence := by
  have hproof := h.all_eq (f := fun r => decide (r.proofHash ≠ Bytes32.zero))
  have hattest := h.all_eq
    (f := fun r => decide (r.attestationHash ≠ Bytes32.zero))
  simp only [verificationSatisfied, hproof, hattest, h.length_eq]

-- ==== results

/-- Results of different providers stay as they are when they are put
into a map. -/
theorem entries_resultsByProvider
    (h : (results.map ComputeResult.provider).Nodup) :
    ((resultsByProvider results).entries.map Sigma.snd).Perm results := by
  have hfold : ∀ (xs : List ComputeResult)
      (m : AList fun _ : AccountID => ComputeResult),
      (xs.map ComputeResult.provider).Nodup →
      (∀ x ∈ xs, x.provider ∉ m) →
      ((xs.foldl (fun m r => m.insert r.provider r) m).entries.map
        Sigma.snd).Perm (xs ++ m.entries.map Sigma.snd) := by
    intro xs
    induction xs with
    | nil => exact fun m _ _ => List.Perm.refl _
    | cons x xs ih =>
      intro m hnodup hnew
      rw [List.map_cons, List.nodup_cons] at hnodup
      have hx := hnew x List.mem_cons_self
      refine (ih (m.insert x.provider x) hnodup.2 ?_).trans ?_
      · intro y hy hmem
        rcases (AList.mem_insert m).1 hmem with heq | hmem
        · exact hnodup.1 (heq ▸ List.mem_map_of_mem hy)
        · exact hnew y (List.mem_cons_of_mem x hy) hmem
      · rw [AList.entries_insert_of_notMem hx, List.map_cons]
        exact List.perm_middle
  have hall := hfold results ∅ h fun x _ => AList.notMem_empty x.provider
  rwa [show (∅ : AList fun _ : AccountID => ComputeResult).entries = [] from
    rfl, List.map_nil, List.append_nil] at hall

/-- The market's record of a job and the one on the chain. -/
structure SameJob (posted : JobRecord) (record : OnChainJob) : Prop where
  job : posted.job = record.job
  escrow : posted.escrow = record.escrow
  status : posted.status = record.status
  assignments : posted.assignments = record.assignments
  /-- Each provider's result is the one the list holds of it. -/
  results : ∀ provider result,
    posted.results.lookup provider = some result ↔
      result ∈ record.results ∧ result.provider = provider
  distinct : (record.results.map ComputeResult.provider).Nodup

namespace SameJob

variable {posted : JobRecord} {record : OnChainJob}

/-- The map holds the results of the list, in some order. -/
theorem perm_results (h : SameJob posted record) :
    (posted.results.entries.map Sigma.snd).Perm record.results := by
  have hentry : ∀ e ∈ posted.results.entries,
      e.2 ∈ record.results ∧ e.2.provider = e.1 := by
    intro e he
    exact (h.results e.1 e.2).1 (AList.mem_lookup_iff.2 he)
  have hkeys : (posted.results.entries.map fun e => e.2.provider).Nodup := by
    rw [List.map_congr_left fun e he => (hentry e he).2]
    exact posted.results.nodupKeys
  have hnodup : (posted.results.entries.map Sigma.snd).Nodup := by
    refine List.Nodup.of_map ComputeResult.provider ?_
    rwa [List.map_map]
  refine (List.perm_ext_iff_of_nodup hnodup h.distinct.of_map).2 ?_
  intro r
  constructor
  · intro hr
    obtain ⟨e, he, rfl⟩ := List.mem_map.1 hr
    exact (hentry e he).1
  · intro hr
    have hlookup := (h.results r.provider r).2 ⟨hr, rfl⟩
    exact List.mem_map.2 ⟨⟨r.provider, r⟩,
      AList.mem_lookup_iff.1 hlookup, rfl⟩

theorem length_results (h : SameJob posted record) :
    posted.results.entries.length = record.results.length := by
  rw [← h.perm_results.length_eq, List.length_map]

/-- A provider has reported to both or to none. -/
theorem reported_iff (h : SameJob posted record) (provider : AccountID) :
    provider ∈ posted.results ↔
      ∃ r ∈ record.results, r.provider = provider := by
  rw [← AList.lookup_isSome, Option.isSome_iff_exists]
  constructor
  · intro ⟨r, hr⟩
    exact ⟨r, (h.results provider r).1 hr⟩
  · intro ⟨r, hr⟩
    exact ⟨r, (h.results provider r).2 hr⟩

/-- The order a loop visits the results in does not matter either. -/
theorem perm_visited (h : SameJob posted record) (order : MapOrder)
    (loop : Nat) :
    ((order.reorder loop posted.results).entries.map Sigma.snd).Perm
      record.results :=
  ((order.entries_reorder loop posted.results).map Sigma.snd).trans
    h.perm_results

-- ==== calls

theorem agree_assign (h : SameJob posted record) (offerID : Hash)
    (offer : Offer) (height : UInt64) :
    Agree (fun x y => x.2 = y.2.1 ∧ y.1.id = record.id ∧
        SameJob x.1 y.1)
      (posted.assign offerID offer height)
      (assignOnChain record offerID offer height) := by
  have hcollateral : offerMatchesJob offer record.job = false ↔
      offerMatchesJob offer record.job = false ∨
        offer.collateral < record.job.collateralRequired := by
    refine ⟨.inl, fun hcase => hcase.elim id ?_⟩
    intro hlt
    simp only [offerMatchesJob, hlt, true_or, or_true, not_true_eq_false,
      false_and, decide_false]
  unfold JobRecord.assign assignOnChain
  rw [h.job, h.escrow, h.status, h.assignments]
  refine agree_refuse _ _ Iff.rfl fun _ => ?_
  refine agree_refuse _ _ hcollateral fun _ => ?_
  refine agree_refuse _ _ Iff.rfl fun _ => ?_
  refine agree_refuse _ _ Iff.rfl fun _ => ?_
  refine agree_bind _ fun committed => ?_
  refine agree_refuse _ _ Iff.rfl fun _ => ?_
  exact ⟨rfl, rfl, rfl, rfl, rfl, rfl, h.results, h.distinct⟩

theorem agree_submit (h : SameJob posted record) {result : ComputeResult}
    (hid : result.jobID = record.id) :
    Agree (fun x y => y.id = record.id ∧ SameJob x y)
      (result.validate >>= fun _ => posted.submitResult result)
      (submitOnChainResult record result) := by
  unfold submitOnChainResult JobRecord.submitResult
  rw [h.job, h.status, h.assignments]
  cases hvalid : result.validate with
  | error failure => trivial
  | ok _ =>
    rw [failWith_ok]
    show Agree _ _ (refuse _ _ >>= _)
    rw [refuse_of_not _ (not_not.2 hid)]
    refine agree_refuse _ _ Iff.rfl fun _ => ?_
    refine agree_refuse _ _ Iff.rfl fun _ => ?_
    refine agree_refuse _ _ Iff.rfl fun _ => ?_
    refine agree_refuse _ _ (h.reported_iff _) fun hnew => ?_
    have hlength : (posted.results.insert result.provider
        result).entries.length = (record.results ++ [result]).length := by
      rw [AList.entries_insert_of_notMem hnew, List.length_cons,
        h.length_results, List.length_append, List.length_singleton]
    refine ⟨rfl, rfl, h.escrow, ?_, rfl, ?_, ?_⟩
    · show (if _ then _ else _) = if _ then _ else _
      rw [hlength]
    · intro provider r
      rw [List.mem_append, List.mem_singleton]
      by_cases hp : provider = result.provider
      · subst hp
        rw [AList.lookup_insert, Option.some_inj]
        constructor
        · intro heq
          exact ⟨.inr heq.symm, by rw [heq]⟩
        · intro ⟨hr, hprovider⟩
          rcases hr with hr | hr
          · exact absurd ((h.reported_iff _).2 ⟨r, hr, hprovider⟩) hnew
          · exact hr.symm
      · rw [AList.lookup_insert_ne hp, h.results]
        constructor
        · exact fun hr => ⟨.inl hr.1, hr.2⟩
        · intro ⟨hr, hprovider⟩
          rcases hr with hr | hr
          · exact ⟨hr, hprovider⟩
          · exact absurd (hprovider.symm.trans (by rw [hr])) hp
    · rw [List.map_append, List.map_singleton, List.nodup_append]
      refine ⟨h.distinct, List.nodup_singleton _, ?_⟩
      intro p hp q hq heq
      obtain ⟨r, hr, hrp⟩ := List.mem_map.1 hp
      rw [List.mem_singleton.1 hq] at heq
      exact hnew ((h.reported_iff _).2 ⟨r, hr, hrp.trans heq⟩)

/-- The two see the same root, or a replicated job without agreement. -/
theorem common_eq (h : SameJob posted record) (order : MapOrder)
    (hcount : record.results.length = record.job.requiredAssignments) :
    commonResultRoot ((order.reorder 0 posted.results).entries.map
        Sigma.snd) = commonResultRootRecord record.results ∨
      record.job.verification = .replicated ∧
        (commonResultRoot ((order.reorder 0 posted.results).entries.map
          Sigma.snd)).2 = false ∧
        (commonResultRootRecord record.results).2 = false := by
  have hvisited := h.perm_visited order 0
  rw [commonResultRootRecord_eq]
  have hperm := hvisited.trans (List.perm_insertionSort
    (fun a b : ComputeResult => Bytes32.Before a.provider b.provider)
    record.results).symm
  obtain ⟨hsame, hroot⟩ := commonResultRoot_of_perm hperm
  by_cases hmode : record.job.verification = .replicated
  · cases hagree : (commonResultRoot ((order.reorder 0
        posted.results).entries.map Sigma.snd)).2 with
    | true => exact .inl (Prod.ext (hroot hagree) hsame)
    | false => exact .inr ⟨hmode, rfl, hsame.symm.trans hagree⟩
  · -- one result only, so there is one order
    have hone : record.results.length = 1 := by
      rw [hcount, Job.requiredAssignments, if_neg hmode]
    obtain ⟨r, hr⟩ := List.length_eq_one_iff.1 hone
    rw [hr] at hvisited hperm ⊢
    left
    rw [List.perm_singleton.1 hvisited]
    rfl

theorem agree_finalize (h : SameJob posted record) (order : MapOrder)
    (evidence : VerificationEvidence) :
    Agree (fun x y => x.2 = y.2.settlement ∧ y.1.id = record.id ∧
        SameJob x.1 y.1)
      (posted.finalize order record.id evidence)
      (finalizeOnChain record evidence) := by
  unfold JobRecord.finalize finalizeOnChain
  rw [h.job, h.status, h.assignments, h.escrow, h.length_results]
  refine agree_refuse _ _ Iff.rfl fun hopen => ?_
  have hcount := not_not.1 (not_or.1 hopen).2
  have hresults : ∀ same, verificationSatisfied record.job.verification same
      ((order.reorder 1 posted.results).entries.map Sigma.snd) evidence =
      verificationSatisfied record.job.verification same
        ((resultsByProvider record.results).entries.map Sigma.snd)
        evidence := fun same =>
    verificationSatisfied_of_perm _ _ ((h.perm_visited order 1).trans
      (entries_resultsByProvider h.distinct).symm) _
  rcases h.common_eq order hcount with heq | ⟨hmode, hposted, hrecord⟩
  · simp only [heq, hresults]
    refine agree_refuse _ _ Iff.rfl fun _ => ?_
    refine agree_bind _ fun paid => ?_
    refine agree_refuse _ _ Iff.rfl fun _ => ?_
    exact ⟨rfl, rfl, rfl, rfl, rfl, rfl, h.results, h.distinct⟩
  · -- both are refused: replicated results that do not agree
    have hfails : ∀ results, verificationSatisfied
        record.job.verification false results evidence = false := by
      intro results
      rw [hmode]
      rfl
    simp only [hposted, hrecord, hfails, or_true, refuse_of]
    trivial

end SameJob

-- ==== runs

/-- The market holds the job under its id, in the state it has on the
chain. -/
structure Tracked (id : JobID) (m : Market) (record : OnChainJob) :
    Prop where
  named : record.id = id
  same : ∃ posted, m.jobs.lookup id = some posted ∧ SameJob posted record

/-- What an answered call leaves on both sides. -/
def SameOutcome (id : JobID) (x : Market × JobAnswer)
    (y : OnChainJob × JobAnswer) : Prop :=
  x.2 = y.2 ∧ Tracked id x.1 y.1

/-- A call that may fail, other than the expiry of all that is due. -/
def MarketOp.Answered : MarketOp → Prop
  | expire _ => False
  | _ => True

variable {C : Crypto} {id : JobID} {m m' : Market} {record : OnChainJob}

theorem tracked_postJob {m₀ : Market} {job : Job} {escrow height : UInt64}
    (h : m₀.postJob C job escrow height = .ok (m, id)) :
    Tracked id m ⟨id, job, escrow, .pending, [], []⟩ := by
  simp only [Market.postJob, ok_iff, Prod.mk.injEq] at h
  obtain ⟨-, -, -, jobID, -, -, rfl, rfl⟩ := h
  refine ⟨rfl, ⟨jobID, job, escrow, .pending, [], ∅⟩, ?_, ?_⟩
  · exact AList.lookup_insert m₀.jobs
  · refine ⟨rfl, rfl, rfl, rfl, ?_, List.nodup_nil⟩
    intro provider result
    constructor
    · intro hlookup
      cases hlookup
    · rintro ⟨hr, _⟩
      cases hr

variable {posted : JobRecord}

theorem tracked_update (hid : record.id = id) (h : SameJob posted record) :
    Tracked id (m.update id posted) record :=
  ⟨hid, posted, AList.lookup_insert m.jobs, h⟩

theorem settleCall_of_agree {x : Except Error (Market × JobAnswer)}
    {y : Except Error (OnChainJob × JobAnswer)} (h : Tracked id m record)
    (hagree : Agree (SameOutcome id) x y) :
    Tracked id (settleCall m x) (settleCall record y) := by
  cases x with
  | error _ =>
    cases y with
    | error _ => exact h
    | ok _ => cases hagree
  | ok _ =>
    cases y with
    | error _ => cases hagree
    | ok _ => exact hagree.2

/-- A call on the job is answered alike by the market and the chain. -/
theorem Tracked.agree (h : Tracked id m record) {op : MarketOp}
    {jobOp : JobOp} (hop : op.onChain m id = some jobOp)
    (hanswered : op.Answered) :
    Agree (SameOutcome id) (op.apply C m) (jobOp.answer record) := by
  obtain ⟨hid, posted, hposted, hsame⟩ := h
  cases op with
  | publish offer height => cases hop
  | post job escrow height => cases hop
  | expire height => exact hanswered.elim
  | assign jobID offerID height =>
    simp only [MarketOp.onChain] at hop
    split at hop
    case isFalse => cases hop
    case isTrue hjob =>
      subst hjob
      obtain ⟨published, hoffer, rfl⟩ := Option.map_eq_some_iff.1 hop
      simp only [MarketOp.apply, Market.assign, JobOp.answer, hposted,
        hoffer, require, ok_bind, bind_assoc, pure_bind]
      refine Agree.bind (hsame.agree_assign offerID _ height) ?_
      rintro x y ⟨hanswer, hnamed, hnext⟩
      exact ⟨by rw [hanswer], tracked_update (hnamed.trans hid) hnext⟩
  | submit result =>
    simp only [MarketOp.onChain] at hop
    split at hop
    case isFalse => cases hop
    case isTrue hjob =>
      subst hjob
      cases hop
      have hagree := hsame.agree_submit hid.symm
      simp only [MarketOp.apply, Market.submitResult, JobOp.answer,
        hposted, require, ok_bind, bind_assoc, pure_bind]
      rw [← bind_assoc]
      refine Agree.bind hagree ?_
      rintro x y ⟨hnamed, hnext⟩
      exact ⟨rfl, tracked_update (hnamed.trans hid) hnext⟩
  | finalize order jobID evidence =>
    simp only [MarketOp.onChain] at hop
    split at hop
    case isFalse => cases hop
    case isTrue hjob =>
      subst hjob
      cases hop
      simp only [MarketOp.apply, Market.finalize, JobOp.answer, hposted,
        require, ok_bind, bind_assoc, pure_bind]
      have hagree := hsame.agree_finalize order evidence
      rw [hid] at hagree
      refine Agree.bind hagree ?_
      rintro x y ⟨hanswer, hnamed, hnext⟩
      exact ⟨by rw [hanswer], tracked_update hnamed hnext⟩

/-- A call on anything else leaves the job alone. -/
theorem lookup_of_onChain_none {op : MarketOp} {answer : JobAnswer}
    (hposted : m.jobs.lookup id = some posted)
    (hop : op.onChain m id = none)
    (happly : op.apply C m = .ok (m', answer)) :
    m'.jobs.lookup id = some posted := by
  have hother : ∀ {jobID : JobID} {job : JobRecord}, jobID ≠ id →
      (m.update jobID job).jobs.lookup id = some posted := fun hne =>
    (AList.lookup_insert_ne hne.symm).trans hposted
  cases op with
  | publish offer height =>
    simp only [MarketOp.apply, Market.publishOffer, ok_iff, Prod.mk.injEq,
      Prod.exists] at happly
    obtain ⟨_, _, ⟨-, -, _, -, -, rfl, rfl⟩, rfl, -⟩ := happly
    exact hposted
  | post job escrow height =>
    simp only [MarketOp.apply, Market.postJob, ok_iff, Prod.mk.injEq,
      Prod.exists] at happly
    obtain ⟨_, _, ⟨-, -, -, jobID, -, hnew, rfl, rfl⟩, rfl, -⟩ := happly
    have hmem : id ∈ m.jobs :=
      AList.lookup_isSome.1 (Option.isSome_iff_exists.2 ⟨_, hposted⟩)
    have hne : id ≠ jobID := fun heq => hnew (heq ▸ hmem)
    exact (AList.lookup_insert_ne hne).trans hposted
  | assign jobID offerID height =>
    simp only [MarketOp.apply, Market.assign, ok_iff, Prod.mk.injEq,
      Prod.exists] at happly
    obtain ⟨_, _, ⟨_, -, published, hoffer, _, _, -, rfl, -⟩, rfl,
      -⟩ := happly
    simp only [MarketOp.onChain] at hop
    split at hop
    case isTrue =>
      rw [hoffer] at hop
      cases hop
    case isFalse hne => exact hother hne
  | submit result =>
    simp only [MarketOp.apply, Market.submitResult, ok_iff,
      Prod.mk.injEq] at happly
    obtain ⟨_, ⟨-, _, -, _, -, rfl⟩, rfl, -⟩ := happly
    simp only [MarketOp.onChain] at hop
    split at hop
    case isTrue => cases hop
    case isFalse hne => exact hother hne
  | finalize order jobID evidence =>
    simp only [MarketOp.apply, Market.finalize, ok_iff, Prod.mk.injEq,
      Prod.exists] at happly
    obtain ⟨_, _, ⟨_, -, _, _, -, rfl, -⟩, rfl, -⟩ := happly
    simp only [MarketOp.onChain] at hop
    split at hop
    case isTrue => cases hop
    case isFalse hne => exact hother hne
  | expire height => cases hop

/-- A job that is due expires on the chain as well. -/
theorem SameJob.expire_iff (h : SameJob posted record) (height : UInt64) :
    posted.Due height ↔ ∃ out, expireOnChain record height = .ok out := by
  simp only [JobRecord.Due, h.status, h.job, expireOnChain, ok_iff, not_or,
    UInt64.not_le]
  constructor
  · intro hdue
    exact ⟨_, hdue, rfl⟩
  · rintro ⟨_, hdue, _⟩
    exact hdue

theorem lookup_expire (m : Market) (height : UInt64) (id : JobID) :
    (m.expire height).1.jobs.lookup id =
      (m.jobs.lookup id).map (JobRecord.expire height) := by
  show List.dlookup id (m.jobs.entries.map _) =
    (List.dlookup id m.jobs.entries).map _
  induction m.jobs.entries with
  | nil => rfl
  | cons e es ih =>
    obtain ⟨k, job⟩ := e
    by_cases hk : id = k
    · subst hk
      rw [List.map_cons, List.dlookup_cons_eq, List.dlookup_cons_eq]
      rfl
    · rw [List.map_cons, List.dlookup_cons_ne _ _ hk,
        List.dlookup_cons_ne _ _ hk, ih]

theorem mem_expired (height : UInt64) (h : m.jobs.lookup id = some posted) :
    id ∈ (m.expire height).2 ↔ posted.Due height := by
  have hentry : (⟨id, posted⟩ : Σ _ : JobID, JobRecord) ∈ m.jobs.entries :=
    AList.mem_lookup_iff.1 h
  rw [Market.expire, List.mem_insertionSort, List.mem_map]
  constructor
  · intro ⟨e, he, heq⟩
    obtain ⟨hmem, hdue⟩ := List.mem_filter.1 he
    obtain ⟨k, job⟩ := e
    subst heq
    have hjob : m.jobs.lookup k = some job := AList.mem_lookup_iff.2 hmem
    rw [h, Option.some_inj] at hjob
    subst hjob
    exact of_decide_eq_true hdue
  · intro hdue
    exact ⟨_, List.mem_filter.2 ⟨hentry, decide_eq_true hdue⟩, rfl⟩

theorem Tracked.expire (h : Tracked id m record) (height : UInt64) :
    Tracked id (m.expire height).1
      (settleCall record ((JobOp.expire height).answer record)) := by
  obtain ⟨hid, posted, hposted, hsame⟩ := h
  have hlookup : (m.expire height).1.jobs.lookup id =
      some (posted.expire height) := by
    rw [lookup_expire, hposted]
    rfl
  by_cases hdue : posted.Due height
  · obtain ⟨out, hout⟩ := (hsame.expire_iff height).1 hdue
    have hrecord : out.1 = { record with status := .expired } := by
      simp only [expireOnChain, ok_iff] at hout
      obtain ⟨-, rfl⟩ := hout
      rfl
    have hstate : settleCall record ((JobOp.expire height).answer record) =
        { record with status := .expired } := by
      rw [JobOp.answer, hout, ← hrecord]
      rfl
    rw [hstate]
    refine ⟨hid, _, hlookup, ?_⟩
    rw [JobRecord.expire, if_pos hdue]
    exact ⟨hsame.job, hsame.escrow, rfl, hsame.assignments, hsame.results,
      hsame.distinct⟩
  · have hstate : settleCall record ((JobOp.expire height).answer record) =
        record := by
      cases hout : expireOnChain record height with
      | error failure =>
        rw [JobOp.answer, hout]
        rfl
      | ok out =>
        exact absurd ((hsame.expire_iff height).2 ⟨out, hout⟩) hdue
    rw [hstate]
    refine ⟨hid, _, hlookup, ?_⟩
    rw [JobRecord.expire, if_neg hdue]
    exact hsame

/-- One call keeps the two in step, whether it succeeds or not. -/
theorem Tracked.lockstep (h : Tracked id m record) (op : MarketOp) :
    Tracked id (lockstep C id (m, record) op).1
      (lockstep C id (m, record) op).2 := by
  unfold ZephyrChain.lockstep
  cases hop : op.onChain m id with
  | none =>
    obtain ⟨hid, posted, hposted, hsame⟩ := h
    cases happly : op.apply C m with
    | error failure => exact ⟨hid, posted, hposted, hsame⟩
    | ok out =>
      exact ⟨hid, posted, lookup_of_onChain_none hposted hop happly,
        hsame⟩
  | some jobOp =>
    cases op with
    | expire height =>
      cases hop
      exact h.expire height
    | publish offer height => cases hop
    | post job escrow height => cases hop
    | assign jobID offerID height =>
      exact settleCall_of_agree h (h.agree hop trivial)
    | submit result => exact settleCall_of_agree h (h.agree hop trivial)
    | finalize order jobID evidence =>
      exact settleCall_of_agree h (h.agree hop trivial)

theorem Tracked.run (h : Tracked id m record) (ops : List MarketOp) :
    Tracked id (ops.foldl (ZephyrChain.lockstep C id) (m, record)).1
      (ops.foldl (ZephyrChain.lockstep C id) (m, record)).2 := by
  induction ops generalizing m record with
  | nil => exact h
  | cons op ops ih => exact ih (h.lockstep op)

/-- From the posting of a job on, whatever calls the market takes: the
market and the chain hold the job in the same state, accept the same
calls on it with the same answers, in every order of the maps, and let it
expire together. -/
theorem market_agrees_with_chain (C : Crypto) {m₀ m : Market} {job : Job}
    {escrow height : UInt64} {id : JobID}
    (h : m₀.postJob C job escrow height = .ok (m, id))
    (ops : List MarketOp) :
    Tracked id (lockstepRun C m id job escrow ops).1
        (lockstepRun C m id job escrow ops).2 ∧
      (∀ (op : MarketOp) (jobOp : JobOp),
        op.onChain (lockstepRun C m id job escrow ops).1 id = some jobOp →
        op.Answered →
        Agree (SameOutcome id)
          (op.apply C (lockstepRun C m id job escrow ops).1)
          (jobOp.answer (lockstepRun C m id job escrow ops).2)) ∧
      ∀ now, id ∈ ((lockstepRun C m id job escrow ops).1.expire now).2 ↔
        ∃ out, expireOnChain (lockstepRun C m id job escrow ops).2 now =
          .ok out := by
  have hs : Tracked id (lockstepRun C m id job escrow ops).1
      (lockstepRun C m id job escrow ops).2 := (tracked_postJob h).run ops
  refine ⟨hs, ?_, ?_⟩
  · intro op jobOp hop hanswered
    exact hs.agree hop hanswered
  · intro now
    obtain ⟨-, posted, hposted, hsame⟩ := hs
    rw [mem_expired now hposted, hsame.expire_iff]

/-- A replicated job, posted on an empty market. -/
theorem market_agrees_replicated : ∃ m id,
    (⟨∅, ∅⟩ : Market).postJob sampleJobCrypto replicatedJob 10 1 =
        .ok (m, id) ∧
      ∀ ops, Tracked id
        (lockstepRun sampleJobCrypto m id replicatedJob 10 ops).1
        (lockstepRun sampleJobCrypto m id replicatedJob 10 ops).2 := by
  have hposted : ∃ m id, (⟨∅, ∅⟩ : Market).postJob sampleJobCrypto
      replicatedJob 10 1 = .ok (m, id) := ⟨_, _, rfl⟩
  obtain ⟨m, id, hposted⟩ := hposted
  refine ⟨m, id, hposted, ?_⟩
  intro ops
  exact (market_agrees_with_chain sampleJobCrypto hposted ops).1

end ZephyrChain
