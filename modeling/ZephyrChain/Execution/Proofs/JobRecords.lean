/-
Job records over the life of a job object: what an ingestion writes into
the object, the next operation on the job has to read.

# The limit

`MarshalBinary` writes any number of assignments, `ParseOnChainJob` reads
at most 1024 of them, and a replicated job may ask for up to 65535. The
ingestion that adds the assignment after the 1024th succeeds and leaves
an object no operation can read again: the escrow and the collateral in
it are lost (`long_job_unreadable`). Every other ingestion writes a
record that reads back as it was, up to the order of its lists
(`job_records_readable_iff`). Results are not a second way to get there,
since each reporter is one of the assigned providers.

# The argument

A history starts with the object `executeComputeJob` creates and goes on
with ingestions, each of the data the one before it wrote. `Tracks` is
what holds of the data all along: a record that reads from it has the
job's terms, trimmed as the codec trims them, and reports of assigned
providers only.
-/
import ZephyrChain.Execution.Proofs.Compute
import ZephyrChain.Execution.Proofs.Execute
import ZephyrChain.Compute.Proofs.Lifecycle

namespace ZephyrChain.Execution

open Lib

-- ==== histories

inductive IngestKind where
  | assignment
  | result
  deriving DecidableEq

/-- An operation that ingests a message into a job. -/
structure Ingest where
  kind : IngestKind
  engine : Engine
  transaction : Transaction
  payload : Bytes

def Ingest.execute (C : Crypto) (i : Ingest) : Except Error Result :=
  match i.kind with
  | .assignment =>
    executeComputeIngestAssignment C i.engine i.transaction i.payload
  | .result =>
    executeComputeIngestResult C i.engine i.transaction i.payload

/-- What an ingestion makes of the record of a job. -/
inductive Updates (record : OnChainJob) (updated : OnChainJob) :
    IngestKind → Prop
  | assignment {offerID : Hash} {offer : Offer} {height : UInt64}
      {rest : Assignment × UInt64} :
      assignOnChain record offerID offer height = .ok (updated, rest) →
      Updates record updated .assignment
  | result {result : ComputeResult} :
      submitOnChainResult record result = .ok updated →
      Updates record updated .result

/-- An ingestion with the job object around it, and the records it read
and wrote. -/
structure IngestStep where
  ingest : Ingest
  before : Object
  record : OnChainJob
  updated : OnChainJob
  after : Object

/-- The step happened: the operation was executed on the job object
`before` and left it as `after`, the last of the objects it creates. -/
structure IngestStep.Executed (C : Crypto) (s : IngestStep) : Prop where
  writes : ∃ r, s.ingest.execute C = .ok r ∧
    s.before ∈ s.ingest.transaction.objects ∧
    s.before.kind = .computeJob ∧ r.created.getLast? = some s.after
  rewrites : s.after = rewrite s.before s.after.data
  read : parseOnChainJob s.before.data = .ok s.record
  updates : Updates s.record s.updated s.ingest.kind
  written : s.updated.marshalBinary = .ok s.after.data

/-- Ingestions one after the other into a job object. -/
inductive JobHistory (C : Crypto) (start : Object) :
    List IngestStep → Object → Prop
  | nil : JobHistory C start [] start
  | snoc {steps : List IngestStep} {s : IngestStep} :
      JobHistory C start steps s.before → s.Executed C →
      JobHistory C start (steps ++ [s]) s.after

/-- Two records with the same assignments and results, in some order. -/
structure SameRecord (a b : OnChainJob) : Prop where
  id : a.id = b.id
  job : a.job = b.job
  escrow : a.escrow = b.escrow
  status : a.status = b.status
  assignments : a.assignments.Perm b.assignments
  results : a.results.Perm b.results

/-- What the step wrote reads back as the record it is. -/
def IngestStep.Readable (s : IngestStep) : Prop :=
  ∃ back, parseOnChainJob s.after.data = .ok back ∧ SameRecord back s.updated

/-- An assignment finds fewer than 1024 in the record. -/
def IngestStep.InRoom (s : IngestStep) : Prop :=
  s.ingest.kind = .assignment → s.record.assignments.length < 1024

variable {C : Crypto}

-- ==== tracking

/-- What a record read along the history of a job holds. -/
structure Tracked (job : Job) (record : OnChainJob) : Prop where
  terms : record.job = job.trimmed
  reports : Lifecycle.Reports record

/-- Data from which nothing but such records can be read. -/
def Tracks (job : Job) (data : Bytes) : Prop :=
  ∀ record, parseOnChainJob data = .ok record → Tracked job record

theorem trimmed_trimmed (job : Job) : job.trimmed.trimmed = job.trimmed := by
  simp only [Job.trimmed, Resources.trimmed, List.map_map]
  congr 2
  apply List.map_congr_left
  intro c _
  exact trimSpace_trimSpace c

namespace Updates

variable {record updated : OnChainJob} {kind : IngestKind}

theorem job_eq (h : Updates record updated kind) :
    updated.job = record.job := by
  cases h with
  | assignment h => exact (assignOnChain_eq_ok h).2.1
  | result h => exact (submitOnChainResult_eq_ok h).2.1

theorem reports (h : Updates record updated kind)
    (hreports : Lifecycle.Reports record) : Lifecycle.Reports updated := by
  cases h with
  | result h => exact hreports.submit h
  | assignment h =>
    obtain ⟨-, -, -, -, -, rfl⟩ := Lifecycle.assign_eq_ok h
    refine ⟨hreports.distinct, ?_⟩
    intro r hr
    obtain ⟨a, ha, heq⟩ := hreports.assigned r hr
    exact ⟨a, List.mem_append_left _ ha, heq⟩

/-- The number of assignments an ingestion leaves. -/
theorem length_assignments (h : Updates record updated kind) :
    updated.assignments.length = record.assignments.length +
      if kind = .assignment then 1 else 0 := by
  cases h with
  | assignment h => exact (assignOnChain_eq_ok h).2.2.1
  | result h =>
    rw [(submitOnChainResult_eq_ok h).2.2.1]
    rfl

/-- The number of results stays within what the reader takes. -/
theorem length_results (h : Updates record updated kind)
    (hreports : Lifecycle.Reports record)
    (hassignments : record.assignments.length ≤ 1024)
    (hresults : record.results.length ≤ 1024) :
    updated.results.length ≤ 1024 := by
  cases h with
  | assignment h =>
    rw [(assignOnChain_eq_ok h).2.2.2]
    exact hresults
  | result h =>
    have hle := (hreports.submit h).length_le
    rw [(submitOnChainResult_eq_ok h).2.2.1] at hle
    omega

end Updates

theorem Tracked.normalized {job : Job} {record : OnChainJob}
    (hterms : record.job.trimmed = job.trimmed)
    (hreports : Lifecycle.Reports record) :
    Tracked job record.normalized := by
  have hassign : record.sortedAssignments.Perm record.assignments :=
    List.perm_insertionSort _ _
  have hresult : record.sortedResults.Perm record.results :=
    List.perm_insertionSort _ _
  refine ⟨hterms, ?_, ?_⟩
  · exact (hresult.map _).nodup_iff.2 hreports.distinct
  · intro r hr
    obtain ⟨a, ha, heq⟩ := hreports.assigned r (hresult.mem_iff.1 hr)
    exact ⟨a, hassign.mem_iff.2 ha, heq⟩

theorem sameRecord_normalized {record : OnChainJob}
    (h : record.job.trimmed = record.job) :
    SameRecord record.normalized record :=
  ⟨rfl, h, rfl, rfl, List.perm_insertionSort _ _,
    List.perm_insertionSort _ _⟩

-- ==== one step

section Step

variable {job : Job} {s : IngestStep} (htracks : Tracks job s.before.data)
  (h : s.Executed C)

include h in
/-- What a step wrote is the encoding of a valid record. -/
theorem IngestStep.Executed.encoded :
    s.updated.validate = .ok () ∧ s.after.data = s.updated.encode := by
  have hwritten := h.written
  simp only [OnChainJob.marshalBinary, ok_iff] at hwritten
  exact ⟨hwritten.1, hwritten.2.symm⟩

include htracks h

/-- What the data after a step reads as, if it reads at all. -/
theorem IngestStep.Executed.parse_after {back : OnChainJob} :
    parseOnChainJob s.after.data = .ok back ↔
      back = s.updated.normalized ∧ s.InRoom := by
  obtain ⟨hvalid, hafter⟩ := h.encoded
  obtain ⟨hassign, hresult⟩ := (parseOnChainJob_iff.1 h.read).2.2
  have hreports := (htracks s.record h.read).reports
  have hcount := h.updates.length_assignments
  have hresults := h.updates.length_results hreports hassign hresult
  have hmore : s.updated.assignments.length ≤ 1025 := by
    rw [hcount]
    split <;> omega
  rw [hafter, parseOnChainJob, OnChainJob.parse_encode_iff hvalid (by decide)
    (by omega) (by omega), hcount]
  apply and_congr_right
  intro _
  unfold IngestStep.InRoom
  by_cases hkind : s.ingest.kind = .assignment
  · simp only [hkind, if_true, forall_const]
    omega
  · simp only [hkind, if_false, false_implies, iff_true]
    omega

theorem IngestStep.Executed.tracks_after : Tracks job s.after.data := by
  intro back hback
  have htracked := htracks s.record h.read
  rw [((h.parse_after htracks).1 hback).1]
  refine Tracked.normalized ?_ (h.updates.reports htracked.reports)
  rw [h.updates.job_eq, htracked.terms, trimmed_trimmed]

/-- A step leaves a record that can be read exactly when there was room
for it. -/
theorem IngestStep.Executed.readable_iff : s.Readable ↔ s.InRoom := by
  have htrim : s.updated.job.trimmed = s.updated.job := by
    rw [h.updates.job_eq, (htracks s.record h.read).terms, trimmed_trimmed]
  constructor
  · rintro ⟨back, hback, -⟩
    exact ((h.parse_after htracks).1 hback).2
  · intro hroom
    exact ⟨_, (h.parse_after htracks).2 ⟨rfl, hroom⟩,
      sameRecord_normalized htrim⟩

/-- A job that asks for at most 1024 providers always has room. -/
theorem IngestStep.Executed.inRoom (hsmall : job.requiredAssignments ≤ 1024) :
    s.InRoom := by
  intro hkind
  have hupdates := h.updates
  rw [hkind] at hupdates
  cases hupdates with
  | assignment hassign =>
    obtain ⟨-, -, hlt, -⟩ := Lifecycle.assign_eq_ok hassign
    rw [(htracks s.record h.read).terms] at hlt
    exact Nat.lt_of_lt_of_le hlt hsmall

end Step

-- ==== runs

theorem JobHistory.tracks {job : Job} {start o : Object}
    {steps : List IngestStep} (hrun : JobHistory C start steps o)
    (hstart : Tracks job start.data) :
    Tracks job o.data ∧
      ∀ s ∈ steps, Tracks job s.before.data ∧ s.Executed C := by
  induction hrun with
  | nil => exact ⟨hstart, List.forall_mem_nil _⟩
  | @snoc steps s _ hstep ih =>
    obtain ⟨hbefore, hall⟩ := ih
    refine ⟨hstep.tracks_after hbefore, ?_⟩
    exact forall_mem_concat hall ⟨hbefore, hstep⟩

/-- The object an accepted job starts with. -/
theorem executeComputeJob_eq_ok {e : Engine} {t : Transaction}
    {payload : Bytes} {r : Result} {o : Object}
    (h : executeComputeJob C e t payload = .ok r)
    (ho : r.created.getLast? = some o) :
    ∃ (job : Job) (record : OnChainJob), parseJob payload = .ok job ∧
      record.job = job ∧ record.results = [] ∧
      parseOnChainJob o.data = .ok record.normalized := by
  simp only [executeComputeJob, newJobObject, ok_iff] at h
  obtain ⟨job, hjob, -, ⟨created, outbound, consumed⟩, -, _,
    ⟨raw, hraw, rfl⟩, rfl⟩ := h
  simp only [List.getLast?_concat, Option.some.injEq] at ho
  subst ho
  simp only [OnChainJob.marshalBinary, ok_iff] at hraw
  obtain ⟨hvalid, rfl⟩ := hraw
  exact ⟨job, _, hjob, rfl, rfl, OnChainJob.parse_encode hvalid
    (Nat.zero_le _) (Nat.zero_le _) (by decide)⟩

/-- The record of an accepted job is readable from the start, and an
ingestion leaves one that is readable again, and the same up to order,
exactly when it does not add an assignment to 1024 of them. A job for at
most 1024 providers never comes to that. -/
theorem job_records_readable_iff {e : Engine} {t : Transaction}
    {payload : Bytes} {r : Result} {o : Object}
    (hjob : executeComputeJob C e t payload = .ok r)
    (ho : r.created.getLast? = some o) {steps : List IngestStep}
    {last : Object} (hrun : JobHistory C o steps last) :
    (∃ first, parseOnChainJob o.data = .ok first) ∧
      (∀ s ∈ steps, s.Readable ↔ s.InRoom) ∧
      ∀ job, parseJob payload = .ok job →
        job.requiredAssignments ≤ 1024 → ∀ s ∈ steps, s.InRoom := by
  obtain ⟨job, record, hparse, hterms, hnone, hfirst⟩ :=
    executeComputeJob_eq_ok hjob ho
  have hstart : Tracks job o.data := by
    intro first hread
    rw [hfirst] at hread
    cases hread
    refine Tracked.normalized (by rw [hterms]) ⟨?_, ?_⟩
    · rw [hnone]
      exact List.nodup_nil
    · rw [hnone]
      exact List.forall_mem_nil _
  obtain ⟨-, hall⟩ := hrun.tracks hstart
  refine ⟨⟨_, hfirst⟩, ?_, ?_⟩
  · intro s hs
    obtain ⟨hbefore, hstep⟩ := hall s hs
    exact hstep.readable_iff hbefore
  · intro job' hjob' hsmall s hs
    rw [hparse] at hjob'
    cases hjob'
    obtain ⟨hbefore, hstep⟩ := hall s hs
    exact hstep.inRoom hbefore hsmall

-- ==== a job for too many

/-- A job for 2000 providers at one unit each. -/
def longJob : Job :=
  ⟨Vector.replicate 32 4, Vector.replicate 32 1, Vector.replicate 32 2,
    smallResources, 2000, 0, .replicated, 10, 2000, false⟩

/-- The account with a number of its own. -/
def numbered (n : Nat) : AccountID := Bytes32.copy32 (beBytes 32 (n + 1))

def numberedAssignment (n : Nat) : Assignment :=
  ⟨Vector.replicate 32 7, numbered n, 1⟩

def numberedOffer (n : Nat) : Offer :=
  ⟨numbered n, smallResources, 1, 0, [.replicated], 10⟩

/-- The job after so many assignments. -/
def longRecord (n : Nat) : OnChainJob :=
  ⟨Vector.replicate 32 4, longJob, 2000, .pending,
    (List.range n).map numberedAssignment, []⟩

variable {n : Nat}

theorem toNat_numbered (h : n < 2000) : (numbered n).toNat = n + 1 := by
  have hlt : n + 1 < 256 ^ 32 :=
    Nat.lt_of_lt_of_le (show n + 1 < 2 ^ 11 by omega) (by decide)
  rw [numbered, Bytes32.toNat,
    Bytes32.toList_copy32 (length_beBytes 32 (n + 1)),
    ofBe_beBytes_of_lt hlt]

theorem numbered_ne_zero (h : n < 2000) : ¬ IsZero32 (numbered n) := by
  intro hzero
  have hnat := congrArg Bytes32.toNat hzero
  rw [toNat_numbered h] at hnat
  exact absurd hnat (by
    rw [show Bytes32.zero.toNat = 0 by decide +kernel]
    omega)

theorem validate_numberedAssignment (h : n < 2000) :
    (numberedAssignment n).validate = .ok () := by
  rw [Assignment.validate, refuse_eq_ok]
  rintro (hoffer | hprovider | hprice)
  · have hne : ¬ IsZero32 (Vector.replicate 32 7) := by decide
    exact hne hoffer
  · exact numbered_ne_zero h hprovider
  · have hne : (1 : UInt64) ≠ 0 := by decide
    exact hne hprice

theorem validate_longRecord (h : n ≤ 2000) :
    (longRecord n).validate = .ok () := by
  simp only [OnChainJob.validate, ok_iff, forM_eq_ok]
  refine ⟨?_, ?_, ?_, List.forall_mem_nil _⟩
  · show ¬ (IsZero32 (Vector.replicate 32 4) ∨ (2000 : UInt64) < 2000 ∨
      (1 : UInt8) < 1 ∨ (5 : UInt8) < 1)
    decide
  · show longJob.validate = .ok ()
    decide
  · intro a ha
    obtain ⟨i, hi, rfl⟩ := List.mem_map.1 ha
    exact validate_numberedAssignment
      (Nat.lt_of_lt_of_le (List.mem_range.1 hi) h)

/-- The accounts are in their order already. -/
theorem normalized_longRecord (h : n ≤ 2000) :
    (longRecord n).normalized = longRecord n := by
  have hsorted : (longRecord n).sortedAssignments =
      (longRecord n).assignments := by
    apply List.Pairwise.insertionSort_eq
    rw [longRecord, List.pairwise_map]
    refine (List.pairwise_lt_range (n := n)).imp_of_mem ?_
    intro i j hi hj hlt
    have hin := List.mem_range.1 hi
    have hjn := List.mem_range.1 hj
    show (numbered i).toNat ≤ (numbered j).toNat
    rw [toNat_numbered (by omega), toNat_numbered (by omega)]
    omega
  rw [OnChainJob.normalized, hsorted]
  rfl

theorem parse_longRecord (h : n ≤ 1024) :
    parseOnChainJob (longRecord n).encode = .ok (longRecord n) := by
  have hlen : (longRecord n).assignments.length = n := by
    rw [longRecord, List.length_map, List.length_range]
  rw [parseOnChainJob, OnChainJob.parse_encode
    (validate_longRecord (by omega)) (by omega) (Nat.zero_le _)
    (by decide), normalized_longRecord (by omega)]

/-- The next provider is assigned. -/
theorem assign_longRecord (h : n < 1999) :
    ∃ rest, assignOnChain (longRecord n) (Vector.replicate 32 7)
      (numberedOffer n) 1 = .ok (longRecord (n + 1), rest) := by
  have hlen : (longRecord n).assignments.length = n := by
    rw [longRecord, List.length_map, List.length_range]
  have hones : ((longRecord n).assignments.map Assignment.price).map
      UInt64.toNat = List.replicate n 1 := by
    rw [List.eq_replicate_iff, List.length_map, List.length_map, hlen]
    refine ⟨rfl, ?_⟩
    intro k hk
    simp only [longRecord, List.map_map, List.mem_map] at hk
    obtain ⟨i, -, rfl⟩ := hk
    rfl
  have hsum : (((longRecord n).assignments.map Assignment.price).map
      UInt64.toNat).sum = n := by
    rw [hones, List.sum_replicate, smul_eq_mul, Nat.mul_one]
  have hfitting : (((longRecord n).assignments.map Assignment.price).map
      UInt64.toNat).sum < 2 ^ 64 := by
    rw [hsum]
    omega
  obtain ⟨total, htotal⟩ :=
    sumChecked_of_fits (e := Error.marketEscrow) hfitting
  have hn : total.toNat = n := (sumChecked_eq_ok htotal).trans hsum
  have hfits : ¬ Overflows total 1 := by
    rw [not_overflows_iff, hn]
    show n + 1 < 2 ^ 64
    omega
  have hnext : (total + 1).toNat = n + 1 := by
    rw [toNat_add_of_fits hfits, hn]
    rfl
  refine ⟨(numberedAssignment n, (numberedOffer n).collateral -
    (longRecord n).job.collateralRequired), ?_⟩
  simp only [assignOnChain, ok_iff]
  refine ⟨?_, ?_, ?_, ?_, total, htotal, ?_, ?_⟩
  · show ¬ (JobStatus.pending = .settled ∨ JobStatus.pending = .expired ∨
      (1 : UInt64) = 0 ∨ (10 : UInt64) < 1 ∨ (10 : UInt64) < 1)
    decide
  · rintro (hmatch | hless)
    · exact absurd hmatch (by
        show ¬ offerMatchesJob ⟨_, smallResources, 1, 0, [.replicated], 10⟩
          longJob = false
        rw [Bool.not_eq_false]
        rfl)
    · exact absurd hless (by show ¬ (0 : UInt64) < 0; decide)
  · rintro ⟨a, ha, heq⟩
    obtain ⟨i, hi, rfl⟩ := List.mem_map.1 ha
    have hlt := List.mem_range.1 hi
    have hnat : (numbered i).toNat = (numbered n).toNat :=
      congrArg Bytes32.toNat heq
    rw [toNat_numbered (by omega), toNat_numbered (by omega)] at hnat
    omega
  · rw [hlen]
    show ¬ 2000 ≤ n
    omega
  · show ¬ ((2000 : UInt64) < 1 ∨ Overflows total 1 ∨
      (2000 : UInt64) < total + 1 ∨ (2000 : UInt64) < total + 1)
    have hle : ¬ (2000 : UInt64) < total + 1 := by
      rw [UInt64.lt_iff_toNat_lt, hnext]
      show ¬ 2000 < n + 1
      omega
    rintro (hprice | hover | hbudget | hescrow)
    · exact absurd hprice (by decide)
    · exact hfits hover
    · exact hle hbudget
    · exact hle hescrow
  · have hmore : (longRecord n).assignments ++ [numberedAssignment n] =
        (longRecord (n + 1)).assignments := by
      rw [longRecord, longRecord, List.range_succ, List.map_append]
      rfl
    have hopen : ¬ (longRecord (n + 1)).assignments.length = 2000 := by
      rw [longRecord, List.length_map, List.length_range]
      omega
    have hstatus : (if ((longRecord n).assignments ++
        [numberedAssignment n]).length = longJob.requiredAssignments
        then JobStatus.assigned else (longRecord n).status) = .pending := by
      rw [hmore]
      exact if_neg hopen
    refine Prod.ext ?_ rfl
    show OnChainJob.mk _ _ _ _ _ _ = longRecord (n + 1)
    rw [longRecord, OnChainJob.mk.injEq]
    exact ⟨rfl, rfl, rfl, hstatus, hmore, rfl⟩

/-- The id of the job object, and that of the message it takes in. -/
def longObjectID : ObjectID :=
  objectIDForShard sampleJobCrypto (Vector.replicate 32 4)
    computeJobObjectIndex 0

def messageID : ObjectID := Vector.replicate 32 8

def longObject (n : Nat) : Object :=
  ⟨longObjectID, UInt64.ofNat (n + 1), Vector.replicate 32 4, .computeJob,
    (longRecord n).encode⟩

def numberedMessage (n : Nat) : AssignmentMessage :=
  ⟨Vector.replicate 32 4, Vector.replicate 32 4, 0, Vector.replicate 32 7,
    numberedOffer n, longJob⟩

def messageObject (n : Nat) : Object :=
  ⟨messageID, 1, Vector.replicate 32 4, .computeAssignment,
    (numberedMessage n).encode⟩

/-- A witness; its proof is not what the handlers look at. -/
def seen (o : Object) : Witness := ⟨o, ⟨true, Bytes32.zero, []⟩⟩

/-- The job is created with a coin of 2000 native units. -/
def longCreation : Transaction :=
  { sampleTransaction sampleJobCrypto ⟨Op.computeJob, longJob.encode⟩ with
    witnesses := [seen ⟨Vector.replicate 32 6, 1, Vector.replicate 32 4,
      .coin, Coin.marshalBinary ⟨Vector.replicate 32 7, 2000, 1⟩⟩] }

def ingestPayload : Bytes := longObjectID.toList ++ messageID.toList

/-- The job and one more assignment for it. -/
def numberedIngest (n : Nat) : Ingest :=
  ⟨.assignment, sampleEngine (Vector.replicate 32 7),
    { sampleTransaction sampleJobCrypto
        ⟨Op.computeIngestAssignment, ingestPayload⟩ with
      witnesses := [seen (longObject n), seen (messageObject n)] },
    ingestPayload⟩

theorem longCreation_eq : ∃ r, executeComputeJob sampleJobCrypto
      (sampleEngine (Vector.replicate 32 7)) longCreation longJob.encode =
        .ok r ∧ r.created.getLast? = some (longObject 0) := by
  have h : (do
      let r ← executeComputeJob sampleJobCrypto
        (sampleEngine (Vector.replicate 32 7)) longCreation longJob.encode
      return r.created.getLast? : Except Error (Option Object)) =
        .ok (some (longObject 0)) := by
    decide +kernel
  simp only [ok_iff] at h
  exact h

theorem validate_numberedMessage (h : n < 2000) :
    (numberedMessage n).validate = .ok () := by
  have hoffer : (numberedOffer n).validate = .ok () := by
    simp only [Offer.validate, ok_iff]
    refine ⟨?_, ?_⟩
    · rintro (hprovider | hrest)
      · exact numbered_ne_zero h hprovider
      · have hne : ¬ ((1 : UInt64) = 0 ∨ (10 : UInt64) = 0 ∨
            [VerificationMode.replicated].length = 0 ∨
            7 < [VerificationMode.replicated].length) := by decide
        exact hne hrest
    · show smallResources.validate = .ok ()
      decide
  have hjob : longJob.validate = .ok () := by decide
  have hmatch : offerMatchesJob (numberedOffer n) longJob = true := rfl
  simp only [AssignmentMessage.validate, ok_iff]
  refine ⟨?_, hoffer, hjob, ?_⟩
  · show ¬ (IsZero32 (Vector.replicate 32 4) ∨
      IsZero32 (Vector.replicate 32 4) ∨ IsZero32 (Vector.replicate 32 7) ∨
      longJob.owner ≠ Vector.replicate 32 4)
    decide
  · rintro (hbad | hless)
    · rw [show (numberedMessage n).offer = numberedOffer n from rfl,
        show (numberedMessage n).job = longJob from rfl, hmatch] at hbad
      cases hbad
    · have hnot : ¬ (0 : UInt64) < 0 := by decide
      exact hnot hless

theorem validateForRecord_numberedMessage (h : n < 2000) :
    (numberedMessage n).validateForRecord (longRecord n) = .ok () := by
  have hjob : longJob.validate = .ok () := by decide
  simp only [AssignmentMessage.validateForRecord, Job.marshalBinary, ok_iff]
  refine ⟨?_, _, ⟨hjob, rfl⟩, _, ⟨hjob, rfl⟩, ?_, validate_numberedMessage h⟩
  · show ¬ (Vector.replicate 32 4 ≠ (Vector.replicate 32 4 : Bytes32) ∨
      longJob.owner ≠ Vector.replicate 32 4)
    decide
  · exact fun hne => hne rfl

/-- The ingestion spends no coin and makes none. -/
theorem accountNativeValue_numberedIngest (n : Nat) :
    accountNativeValue sampleJobCrypto (numberedIngest n).engine
      (numberedIngest n).transaction [longObjectID, messageID] 0 0 =
        .ok ([], [], []) := by
  have hskip : ∀ o : Object, o.id ∈ [longObjectID, messageID] →
      spendStep (numberedIngest n).engine (numberedIngest n).transaction
        [longObjectID, messageID] .conservation .conservation ⟨0, []⟩ o =
          .ok ⟨0, []⟩ := by
    intro o ho
    rw [spendStep, if_pos ho]
    rfl
  have hspent : spendCoins (numberedIngest n).engine
      (numberedIngest n).transaction [longObjectID, messageID]
      .conservation .conservation 0 = .ok ⟨0, []⟩ := by
    show List.foldlM _ _ [longObject n, messageObject n] = _
    rw [List.foldlM_cons, hskip (longObject n) List.mem_cons_self, ok_bind,
      List.foldlM_cons, hskip (messageObject n)
        (List.mem_cons_of_mem _ List.mem_cons_self)]
    rfl
  rw [accountNativeValue, hspent]
  rfl

theorem execute_numberedIngest (h : n ≤ 1024) :
    ∃ r, (numberedIngest n).execute sampleJobCrypto = .ok r ∧
      r.created.getLast? = some (longObject (n + 1)) := by
  have href : parseIngestRef ingestPayload =
      .ok ⟨longObjectID, messageID⟩ := by
    decide +kernel
  have hother : longObjectID ≠ messageID := by decide +kernel
  have hsender : (numberedIngest n).transaction.sender =
      Vector.replicate 32 4 := rfl
  have hjobObject : ownedWitness (numberedIngest n).transaction longObjectID
      .computeJob = .ok (longObject n) := by
    simp only [ownedWitness, ok_iff, hsender]
    refine ⟨longObject n, ?_, ?_, rfl⟩
    · show List.find? _ [longObject n, messageObject n] = _
      exact List.find?_cons_of_pos (decide_eq_true rfl)
    · rintro (hk | ho)
      · exact hk rfl
      · exact ho rfl
  have hmessageObject : ownedWitness (numberedIngest n).transaction messageID
      .computeAssignment = .ok (messageObject n) := by
    simp only [ownedWitness, ok_iff, hsender]
    refine ⟨messageObject n, ?_, ?_, rfl⟩
    · show List.find? _ [longObject n, messageObject n] = _
      rw [List.find?_cons_of_neg (by
        rw [decide_eq_true_eq]
        exact hother)]
      exact List.find?_cons_of_pos (decide_eq_true rfl)
    · rintro (hk | ho)
      · exact hk rfl
      · exact ho rfl
  have hmessage : parseAssignmentMessage (messageObject n).data =
      .ok (numberedMessage n) := by
    have hraw : (numberedMessage n).marshalBinary =
        .ok (numberedMessage n).encode := by
      rw [AssignmentMessage.marshalBinary,
        validate_numberedMessage (by omega)]
      rfl
    exact parseAssignmentMessage_marshalBinary hraw
  obtain ⟨rest, hassign⟩ := assign_longRecord (n := n) (by omega)
  have hwritten : (longRecord (n + 1)).marshalBinary =
      .ok (longRecord (n + 1)).encode := by
    rw [OnChainJob.marshalBinary, validate_longRecord (by omega)]
    rfl
  refine ⟨⟨[longObjectID, messageID], [longObject (n + 1)], [],
    (numberedIngest n).transaction.id sampleJobCrypto⟩, ?_, rfl⟩
  show executeComputeIngestAssignment sampleJobCrypto _ _ ingestPayload = _
  simp only [executeComputeIngestAssignment, ok_iff]
  refine ⟨_, href, _, hjobObject, _, hmessageObject, _, parse_longRecord h,
    _, hmessage, fun hne => hne rfl,
    validateForRecord_numberedMessage (by omega), (_, rest), hassign, _,
    hwritten, _, accountNativeValue_numberedIngest n, ?_⟩
  have hversion : UInt64.ofNat (n + 1) + 1 = UInt64.ofNat (n + 1 + 1) :=
    (UInt64.ofNat_add (n + 1) 1).symm
  have hnext : rewrite (longObject n) (longRecord (n + 1)).encode =
      longObject (n + 1) := by
    rw [rewrite, longObject, hversion]
    rfl
  rw [hnext]
  rfl

/-- One provider after the other, up to the first record that is too
long. -/
theorem longHistory : ∀ n ≤ 1025, ∃ steps, steps.length = n ∧
    JobHistory sampleJobCrypto (longObject 0) steps (longObject n) := by
  intro n
  induction n with
  | zero => exact fun _ => ⟨[], rfl, .nil⟩
  | succ n ih =>
    intro hn
    obtain ⟨steps, hlen, hrun⟩ := ih (by omega)
    obtain ⟨r, hexec, hlast⟩ := execute_numberedIngest (n := n) (by omega)
    obtain ⟨rest, hassign⟩ := assign_longRecord (n := n) (by omega)
    have hstep : IngestStep.Executed sampleJobCrypto
        ⟨numberedIngest n, longObject n, longRecord n, longRecord (n + 1),
          longObject (n + 1)⟩ := by
      refine ⟨⟨r, hexec, List.mem_cons_self, rfl, hlast⟩, ?_,
        parse_longRecord (by omega), .assignment hassign, ?_⟩
      · show longObject (n + 1) = rewrite (longObject n) _
        rw [rewrite, longObject, longObject, UInt64.ofNat_add (n + 1) 1]
        rfl
      · show (longRecord (n + 1)).marshalBinary = _
        rw [OnChainJob.marshalBinary, validate_longRecord (by omega)]
        rfl
    exact ⟨_, by rw [List.length_append, hlen]; rfl, hrun.snoc hstep⟩

/-- The first assignments of the long job all read back. -/
theorem job_records_readable_longJob : ∃ steps, steps.length = 2 ∧
    JobHistory sampleJobCrypto (longObject 0) steps (longObject 2) ∧
    ∀ s ∈ steps, s.Readable ↔ s.InRoom := by
  obtain ⟨r, hcreate, hfirst⟩ := longCreation_eq
  obtain ⟨steps, hlen, hrun⟩ := longHistory 2 (by decide)
  exact ⟨steps, hlen, hrun,
    (job_records_readable_iff hcreate hfirst hrun).2.1⟩

/-- With the 1025th assignment the job object becomes unreadable. -/
theorem long_job_unreadable : ∃ r steps,
    executeComputeJob sampleJobCrypto (sampleEngine (Vector.replicate 32 7))
      longCreation longJob.encode = .ok r ∧
    r.created.getLast? = some (longObject 0) ∧
    JobHistory sampleJobCrypto (longObject 0) steps (longObject 1025) ∧
    ∀ record, parseOnChainJob (longObject 1025).data ≠ .ok record := by
  obtain ⟨r, hcreate, hfirst⟩ := longCreation_eq
  obtain ⟨steps, -, hrun⟩ := longHistory 1025 (Nat.le_refl _)
  refine ⟨r, steps, hcreate, hfirst, hrun, ?_⟩
  intro record hread
  have hlen : (longRecord 1025).assignments.length = 1025 := by
    rw [longRecord, List.length_map, List.length_range]
  have hlimit := (OnChainJob.parse_encode_iff
    (validate_longRecord (by decide)) (by decide) (by rw [hlen]; decide)
    (by decide)).1 hread
  rw [hlen] at hlimit
  exact absurd hlimit.2.1 (by decide)

end ZephyrChain.Execution
