/-
The codecs of the compute records. A record is read as it stands: each
reader is exact, from the record's `layout`. It is written with its
capabilities trimmed and its lists sorted, so it reads back as its
`trimmed` form (`normalized` for a job on the chain): every number, and
the number of assignments and results, is unchanged.
-/
import ZephyrChain.Codec.Exact
import ZephyrChain.Compute.Messages

namespace ZephyrChain

open Lib

/-- A row of encodings of bounded length has bounded length. -/
theorem length_flatMap_le {α : Type} {f : α → Bytes} {k : Nat}
    (xs : List α) (h : ∀ x ∈ xs, (f x).length ≤ k) :
    (xs.flatMap f).length ≤ xs.length * k := by
  induction xs with
  | nil => simp
  | cons x xs ih =>
    have hx := h x List.mem_cons_self
    have hxs := ih fun y hy => h y (List.mem_cons_of_mem x hy)
    rw [List.flatMap_cons, List.length_append, List.length_cons, Nat.succ_mul]
    omega

-- ==== resources

theorem VerificationMode.toUInt8_ofUInt8 (n : UInt8) :
    (VerificationMode.ofUInt8 n).toUInt8 = n := by
  unfold VerificationMode.ofUInt8
  split
  case isTrue h =>
    have hn : n = UInt8.ofNat n.toNat := UInt8.ofNat_toNat.symm
    have hlt : n.toNat < 8 := h
    generalize n.toNat = k at h hn hlt
    subst hn
    interval_cases k <;> rfl
  case isFalse => rfl

theorem VerificationMode.toUInt8_eq_iff {m : VerificationMode} {n : UInt8} :
    m.toUInt8 = n ↔ m = ofUInt8 n :=
  code_eq_iff ofUInt8_toUInt8 toUInt8_ofUInt8

namespace Resources

/-- The resources as they are written. -/
def trimmed (r : Resources) : Resources :=
  { r with capabilities := r.capabilities.map trimSpace }

variable {r : Resources}

theorem validate_eq_ok (h : r.validate = .ok ()) :
    r.capabilities.length ≤ 32 ∧
      ∀ c ∈ r.capabilities, trimSpace c ≠ [] ∧ c.length ≤ 64 := by
  simp only [validate, ok_iff, not_or, not_exists, not_and, not_lt] at h
  exact ⟨h.2.1.2, h.2.2⟩

theorem validate_trimmed (h : r.validate = .ok ()) :
    r.trimmed.validate = .ok () := by
  have hlim := validate_eq_ok h
  simp only [validate, ok_iff] at h ⊢
  refine ⟨h.1, ?_, ?_⟩
  · simpa [trimmed] using h.2.1
  · rintro ⟨c, hc, hbad⟩
    obtain ⟨d, hd, rfl⟩ := List.mem_map.1 hc
    rw [trimSpace_trimSpace] at hbad
    rcases hbad with hbad | hbad
    · exact (hlim.2 d hd).1 hbad
    · have := length_trimSpace_le d
      have := (hlim.2 d hd).2
      omega

def layout (r : Resources) : Bytes :=
  Writer.u16 r.cpuCores ++ Writer.u32 r.memoryMiB ++ Writer.u16 r.gpuCount ++
    Writer.u32 r.gpuMemoryMiB ++ Writer.u64 r.storageMiB ++
    Writer.u32 r.bandwidthMbps ++
    Writer.u32 (UInt32.ofNat r.capabilities.length) ++
    r.capabilities.flatMap Writer.bytes

/-- Capabilities within the limits of the reader. -/
def Short (r : Resources) : Prop :=
  r.capabilities.length ≤ 32 ∧ ∀ c ∈ r.capabilities, c.length ≤ 64

theorem exact_read : Exact read layout Short := by
  refine Exact.of_fields (
    .field cpuCores Reader.exact_u16 fun _ =>
    .field memoryMiB Reader.exact_u32 fun _ =>
    .field gpuCount Reader.exact_u16 fun _ =>
    .field gpuMemoryMiB Reader.exact_u32 fun _ =>
    .field storageMiB Reader.exact_u64 fun _ =>
    .field bandwidthMbps Reader.exact_u32 fun _ =>
    Reader.row32 capabilities (· ≤ 32) (Reader.exact_bytes 64)
      (fun _ => UInt32.not_lt) (fun _ h => h) (by decide) fun _ =>
    .pure fun r => ?_) ?_ ?_
  · cases r
    simp [and_assoc]
  · simp [layout]
  · simp [Short]

theorem short_of_validate (h : r.validate = .ok ()) : r.Short := by
  obtain ⟨hcount, hcaps⟩ := validate_eq_ok h
  exact ⟨hcount, fun c hc => (hcaps c hc).2⟩

theorem layout_trimmed (r : Resources) : r.trimmed.layout = r.encode := by
  simp only [layout, encode, trimmed, List.length_map, List.flatMap_map]

theorem length_layout_le (h : r.Short) : r.layout.length ≤ 2204 := by
  have hrow : (r.capabilities.flatMap Writer.bytes).length ≤
      r.capabilities.length * 68 := by
    refine length_flatMap_le _ ?_
    intro c hc
    have hlen := h.2 c hc
    rw [Writer.length_bytes]
    omega
  have hcount := h.1
  simp only [layout, List.length_append, Writer.length_u16,
    Writer.length_u32, Writer.length_u64]
  omega

end Resources

-- ==== offers and jobs

namespace Offer

def trimmed (o : Offer) : Offer :=
  { o with resources := o.resources.trimmed }

variable {o : Offer}

theorem validate_eq_ok (h : o.validate = .ok ()) :
    o.verification.length ≠ 0 ∧ o.verification.length ≤ 7 ∧
      o.resources.validate = .ok () := by
  simp only [validate, ok_iff, not_or, not_lt] at h
  exact ⟨h.1.2.2.2.1, h.1.2.2.2.2, h.2⟩

theorem validate_trimmed (h : o.validate = .ok ()) :
    o.trimmed.validate = .ok () := by
  have hres := Resources.validate_trimmed (validate_eq_ok h).2.2
  simp only [validate, ok_iff] at h ⊢
  exact ⟨h.1, hres⟩

def layout (o : Offer) : Bytes :=
  Writer.fixed o.provider ++ o.resources.layout ++
    Writer.u64 o.pricePerUnit ++ Writer.u64 o.collateral ++
    Writer.u32 (UInt32.ofNat o.verification.length) ++
    o.verification.flatMap (fun m => Writer.u8 m.toUInt8) ++
    Writer.u64 o.validUntilHeight

theorem exact_readMode :
    Exact readMode (fun m => Writer.u8 m.toUInt8) fun _ => True := by
  refine Exact.of_fields (.field VerificationMode.toUInt8 Reader.exact_u8
    fun _ => .pure fun m => ?_) ?_ ?_
  · simp [VerificationMode.toUInt8_eq_iff]
  · simp
  · simp

/-- Rows within the limits of the reader. -/
structure Short (o : Offer) : Prop where
  resources : o.resources.Short
  some : o.verification.length ≠ 0
  modes : o.verification.length ≤ 7

theorem exact_read : Exact read layout Short := by
  refine Exact.of_fields (
    .field provider Reader.exact_fixed fun _ =>
    .field resources Resources.exact_read fun _ =>
    .field pricePerUnit Reader.exact_u64 fun _ =>
    .field collateral Reader.exact_u64 fun _ =>
    Reader.row32 verification (fun n => n ≠ 0 ∧ n ≤ 7) exact_readMode
      (fun n => ?_) (fun _ h => h.2) (by decide) fun _ =>
    .field validUntilHeight Reader.exact_u64 fun _ =>
    .pure fun o => ?_) ?_ ?_
  · rw [not_or, ← UInt32.toNat_inj, UInt32.not_lt]
    rfl
  · cases o
    simp [and_assoc]
  · simp [layout]
  · intro o
    constructor
    · rintro ⟨-, hres, -, -, ⟨⟨hsome, hmodes⟩, -⟩, -⟩
      exact ⟨hres, hsome, hmodes⟩
    · intro h
      simp [h.resources, h.some, h.modes]

theorem short_of_validate (h : o.validate = .ok ()) : o.Short := by
  obtain ⟨hsome, hmodes, hres⟩ := validate_eq_ok h
  exact ⟨Resources.short_of_validate hres, hsome, hmodes⟩

theorem layout_trimmed (o : Offer) : o.trimmed.layout = o.encode := by
  simp only [layout, encode, trimmed, Resources.layout_trimmed]

theorem normalizes : Normalizes parseOffer marshalBinary layout trimmed
    fun o => o.validate = .ok () where
  parse_iff _ _ := parse_checked_of exact_read fun _ => short_of_validate
  marshal_eq v hv := by
    rw [marshalBinary, hv, layout_trimmed]
    rfl
  norm_ok _ hv := validate_trimmed hv

theorem length_layout_le (h : o.Short) : o.layout.length ≤ 4096 := by
  have hres := Resources.length_layout_le h.resources
  have hmodes := h.modes
  have hrow : (o.verification.flatMap fun m =>
      Writer.u8 m.toUInt8).length ≤ o.verification.length * 1 :=
    length_flatMap_le _ fun m _ => Nat.le_refl _
  simp only [layout, List.length_append, Writer.length_fixed,
    Writer.length_u64, Writer.length_u32]
  omega

theorem length_encode_le (h : o.validate = .ok ()) :
    o.encode.length ≤ 4096 := by
  rw [← layout_trimmed]
  exact length_layout_le (short_of_validate (validate_trimmed h))

end Offer

namespace Job

def trimmed (j : Job) : Job := { j with resources := j.resources.trimmed }

variable {j : Job}

theorem validate_eq_ok (h : j.validate = .ok ()) :
    j.resources.validate = .ok () := by
  simp only [validate, ok_iff] at h
  exact h.2.2

theorem validate_trimmed (h : j.validate = .ok ()) :
    j.trimmed.validate = .ok () := by
  have hres := Resources.validate_trimmed (validate_eq_ok h)
  simp only [validate, ok_iff] at h ⊢
  exact ⟨h.1, h.2.1, hres⟩

def layout (j : Job) : Bytes :=
  Writer.fixed j.owner ++ Writer.fixed j.workloadHash ++
    Writer.fixed j.inputRoot ++ j.resources.layout ++
    Writer.u64 j.maxPrice ++ Writer.u64 j.collateralRequired ++
    Writer.u8 j.verification.toUInt8 ++ Writer.u64 j.deadlineHeight ++
    Writer.u16 j.replicas ++ Writer.bool j.isPrivate

theorem exact_read : Exact read layout fun j => j.resources.Short := by
  refine Exact.of_fields (
    .field owner Reader.exact_fixed fun _ =>
    .field workloadHash Reader.exact_fixed fun _ =>
    .field inputRoot Reader.exact_fixed fun _ =>
    .field resources Resources.exact_read fun _ =>
    .field maxPrice Reader.exact_u64 fun _ =>
    .field collateralRequired Reader.exact_u64 fun _ =>
    .field (·.verification.toUInt8) Reader.exact_u8 fun _ =>
    .field deadlineHeight Reader.exact_u64 fun _ =>
    .field replicas Reader.exact_u16 fun _ =>
    .field isPrivate Reader.exact_bool fun _ => .pure fun j => ?_) ?_ ?_
  · cases j
    simp [VerificationMode.toUInt8_eq_iff, and_assoc]
  · simp [layout]
  · simp

theorem short_of_validate (h : j.validate = .ok ()) : j.resources.Short :=
  Resources.short_of_validate (validate_eq_ok h)

theorem layout_trimmed (j : Job) : j.trimmed.layout = j.encode := by
  simp only [layout, encode, trimmed, Resources.layout_trimmed]

theorem normalizes : Normalizes parseJob marshalBinary layout trimmed
    fun j => j.validate = .ok () where
  parse_iff _ _ := parse_checked_of exact_read fun _ => short_of_validate
  marshal_eq v hv := by
    rw [marshalBinary, hv, layout_trimmed]
    rfl
  norm_ok _ hv := validate_trimmed hv

theorem length_layout_le (h : j.validate = .ok ()) :
    j.layout.length ≤ 4096 := by
  have hres := Resources.length_layout_le (short_of_validate h)
  simp only [layout, List.length_append, Writer.length_fixed,
    Writer.length_u64, Writer.length_u8, Writer.length_u16,
    Writer.length_bool]
  omega

theorem length_encode_le (h : j.validate = .ok ()) :
    j.encode.length ≤ 4096 := by
  rw [← layout_trimmed]
  exact length_layout_le (validate_trimmed h)

end Job

-- ==== messages

/-- The checks on an offer and a job do not see the trimming. -/
theorem offerMatchesJob_trimmed {offer : Offer} {job : Job}
    (h : offerMatchesJob offer job = true) :
    offerMatchesJob offer.trimmed job.trimmed = true := by
  simp only [offerMatchesJob, decide_eq_true_eq] at h ⊢
  refine ⟨h.1, fun c hc => ?_⟩
  obtain ⟨d, hd, rfl⟩ := List.mem_map.1 hc
  exact List.mem_map.2 ⟨d, h.2 d hd, rfl⟩

namespace AssignmentMessage

def trimmed (m : AssignmentMessage) : AssignmentMessage :=
  { m with offer := m.offer.trimmed, job := m.job.trimmed }

variable {m : AssignmentMessage}

theorem validate_eq_ok (h : m.validate = .ok ()) :
    m.offer.validate = .ok () ∧ m.job.validate = .ok () := by
  simp only [validate, ok_iff] at h
  exact ⟨h.2.1, h.2.2.1⟩

theorem validate_trimmed (h : m.validate = .ok ()) :
    m.trimmed.validate = .ok () := by
  obtain ⟨hoffer, hjob⟩ := validate_eq_ok h
  simp only [validate, ok_iff, not_or, Bool.not_eq_false] at h ⊢
  exact ⟨h.1, Offer.validate_trimmed hoffer, Job.validate_trimmed hjob,
    offerMatchesJob_trimmed h.2.2.2.1, h.2.2.2.2⟩

theorem exact_read : Exact read
    (fun m => Writer.fixed m.jobID ++ (Writer.fixed m.jobOwner ++
      (Writer.u32 m.jobShard ++ (Writer.fixed m.offerID ++
        (Writer.bytes m.offer.layout ++ Writer.bytes m.job.layout)))))
    fun m => m.offer.validate = .ok () ∧ m.job.validate = .ok () := by
  refine Exact.of_fields (
    .field jobID Reader.exact_fixed fun _ =>
    .field jobOwner Reader.exact_fixed fun _ =>
    .field jobShard Reader.exact_u32 fun _ =>
    .field offerID Reader.exact_fixed fun _ =>
    .nested offer (Reader.exact_bytes _) Offer.normalizes.parse_iff
      (fun _ h => (Offer.length_layout_le
        (Offer.short_of_validate h)).trans (by decide)) fun _ =>
    .nested job (Reader.exact_bytes _) Job.normalizes.parse_iff
      (fun _ h => (Job.length_layout_le h).trans (by decide)) fun _ =>
    .pure fun m => ?_) ?_ ?_
  · cases m
    simp [and_assoc]
  · simp
  · simp

end AssignmentMessage

theorem parseAssignmentMessage_marshalBinary {m : AssignmentMessage}
    {raw : Bytes} (h : m.marshalBinary = .ok raw) :
    parseAssignmentMessage raw = .ok m.trimmed := by
  simp only [AssignmentMessage.marshalBinary, ok_iff] at h
  obtain ⟨hv, rfl⟩ := h
  have htrim := AssignmentMessage.validate_trimmed hv
  refine (parse_checked AssignmentMessage.exact_read).2
    ⟨?_, AssignmentMessage.validate_eq_ok htrim, htrim⟩
  simp only [AssignmentMessage.encode, AssignmentMessage.trimmed,
    Offer.layout_trimmed, Job.layout_trimmed, List.append_assoc]

-- ==== jobs on the chain

theorem parseAssignment_iff (b : Bytes) (a : Assignment) :
    parseAssignment b = .ok a ↔ b = a.encode ∧ a.validate = .ok () := by
  have hread : Exact Assignment.read Assignment.encode fun _ => True := by
    refine Exact.of_fields (
      .field Assignment.offerID Reader.exact_fixed fun _ =>
      .field Assignment.provider Reader.exact_fixed fun _ =>
      .field Assignment.price Reader.exact_u64 fun _ =>
      .pure fun a => ?_) ?_ ?_
    · cases a
      simp [and_assoc]
    · simp [Assignment.encode]
    · simp
  simp only [parseAssignment, Assignment.marshalBinary, ok_iff,
    parseWith_exact hread]
  constructor
  · rintro ⟨_, ⟨rfl, -⟩, -, _, ⟨hvalid, -⟩, rfl⟩
    exact ⟨rfl, hvalid⟩
  · rintro ⟨rfl, hvalid⟩
    have hprice : ¬ a.price = 0 := by
      simp only [Assignment.validate, refuse_eq_ok, not_or] at hvalid
      exact hvalid.2.2
    exact ⟨a, ⟨rfl, trivial⟩, hprice, _, ⟨hvalid, rfl⟩, rfl⟩

theorem parseComputeResult_iff (b : Bytes) (r : ComputeResult) :
    parseComputeResult b = .ok r ↔ b = r.encode ∧ r.validate = .ok () := by
  have hread : Exact ComputeResult.read ComputeResult.encode
      fun _ => True := by
    refine Exact.of_fields (
      .field ComputeResult.jobID Reader.exact_fixed fun _ =>
      .field ComputeResult.provider Reader.exact_fixed fun _ =>
      .field ComputeResult.resultRoot Reader.exact_fixed fun _ =>
      .field ComputeResult.proofHash Reader.exact_fixed fun _ =>
      .field ComputeResult.attestationHash Reader.exact_fixed fun _ =>
      .field ComputeResult.completedHeight Reader.exact_u64 fun _ =>
      .pure fun r => ?_) ?_ ?_
    · cases r
      simp [and_assoc]
    · simp [ComputeResult.encode]
    · simp
  exact parse_checked_of hread fun _ _ => trivial

/-- A counted row of records. -/
def recordRow {α : Type} (enc : α → Bytes) (xs : List α) : Bytes :=
  Writer.u32 (UInt32.ofNat xs.length) ++
    xs.flatMap fun x => Writer.bytes (enc x)

/-- A row of records is read from its own layout only. -/
theorem Reader.exact_records {α : Type} {limit : Nat}
    {parse : Bytes → Except Error α} {enc : α → Bytes} {ok : α → Prop}
    (hparse : ∀ b x, parse b = .ok x ↔ b = enc x ∧ ok x)
    (hlen : ∀ x, (enc x).length ≤ 1024) (hlimit : limit < 2 ^ 32) :
    Exact (Reader.records limit parse) (recordRow enc)
      fun xs => xs.length ≤ limit ∧ ∀ x ∈ xs, ok x := by
  have hrow : Exact (Reader.records limit parse >>= pure)
      (recordRow enc) fun xs => xs.length ≤ limit ∧ ∀ x ∈ xs, ok x := by
    unfold Reader.records
    simp only [bind_assoc]
    refine Exact.of_fields (Reader.row32 id (· ≤ limit)
      (exact_nested hparse fun x _ => hlen x) (fun _ => Nat.not_lt)
      (fun _ h => h) hlimit fun _ => .pure fun xs => ?_) ?_ ?_
    · simp
    · simp [recordRow]
    · simp
  rwa [bind_pure] at hrow

theorem JobStatus.toUInt8_ofUInt8 (n : UInt8) :
    (JobStatus.ofUInt8 n).toUInt8 = n := by
  unfold JobStatus.ofUInt8
  split
  case isTrue h => exact h.symm
  split
  case isTrue h => exact h.symm
  split
  case isTrue h => exact h.symm
  split
  case isTrue h => exact h.symm
  split
  case isTrue h => exact h.symm
  split
  case isTrue => rfl
  case isFalse h1 h2 h3 h4 h5 hrest =>
    -- a number that is none of the five and not outside of them
    exfalso
    simp only [← UInt8.toNat_inj, UInt8.lt_iff_toNat_lt, not_or] at *
    simp at h1 h2 h3 h4 h5 hrest
    omega

theorem JobStatus.toUInt8_eq_iff {s : JobStatus} {n : UInt8} :
    s.toUInt8 = n ↔ s = ofUInt8 n :=
  code_eq_iff ofUInt8_toUInt8 toUInt8_ofUInt8

namespace OnChainJob

/-- The record as it reads back: trimmed and sorted. -/
def normalized (j : OnChainJob) : OnChainJob :=
  { j with
    job := j.job.trimmed
    assignments := j.sortedAssignments
    results := j.sortedResults }

variable {j : OnChainJob}

theorem validate_eq_ok (h : j.validate = .ok ()) :
    j.job.validate = .ok () ∧
      (∀ a ∈ j.assignments, a.validate = .ok ()) ∧
      ∀ r ∈ j.results, r.validate = .ok () := by
  simp only [validate, ok_iff, forM_eq_ok] at h
  exact h.2

theorem validate_normalized (h : j.validate = .ok ()) :
    j.normalized.validate = .ok () := by
  obtain ⟨hjob, hassign, hresult⟩ := validate_eq_ok h
  simp only [validate, ok_iff, forM_eq_ok] at h ⊢
  refine ⟨h.1, Job.validate_trimmed hjob, fun a ha => ?_, fun r hr => ?_⟩
  · exact hassign a ((List.mem_insertionSort _).1 ha)
  · exact hresult r ((List.mem_insertionSort _).1 hr)

def layout (j : OnChainJob) : Bytes :=
  Writer.fixed j.id ++ Writer.bytes j.job.layout ++ Writer.u64 j.escrow ++
    Writer.u8 j.status.toUInt8 ++
    recordRow Assignment.encode j.assignments ++
    recordRow ComputeResult.encode j.results

/-- What the fields of the record are checked for when it is read. -/
structure Readable (limit : Nat) (j : OnChainJob) : Prop where
  job : j.job.validate = .ok ()
  assignments : j.assignments.length ≤ limit ∧
    ∀ a ∈ j.assignments, a.validate = .ok ()
  results : j.results.length ≤ limit ∧ ∀ r ∈ j.results, r.validate = .ok ()

variable {limit : Nat}

theorem exact_read (hlimit : limit < 2 ^ 32) :
    Exact (read limit) layout (Readable limit) := by
  refine Exact.of_fields (
    .field id Reader.exact_fixed fun _ =>
    .nested job (Reader.exact_bytes _) Job.normalizes.parse_iff
      (fun _ h => (Job.length_layout_le h).trans (by decide)) fun _ =>
    .field escrow Reader.exact_u64 fun _ =>
    .field (·.status.toUInt8) Reader.exact_u8 fun _ =>
    .field assignments (Reader.exact_records parseAssignment_iff
      (fun a => by simp [Assignment.encode]) hlimit) fun _ =>
    .field results (Reader.exact_records parseComputeResult_iff
      (fun r => by simp [ComputeResult.encode]) hlimit) fun _ =>
    .pure fun j => ?_) ?_ ?_
  · cases j
    simp [JobStatus.toUInt8_eq_iff, and_assoc]
  · simp [layout]
  · intro j
    constructor
    · rintro ⟨-, hjob, -, -, ha, hr, -⟩
      exact ⟨hjob, ha, hr⟩
    · intro h
      exact ⟨trivial, h.job, trivial, trivial, h.assignments, h.results,
        trivial⟩

theorem layout_normalized (j : OnChainJob) :
    j.normalized.layout = j.encode := by
  have ha : j.sortedAssignments.length = j.assignments.length :=
    List.length_insertionSort _ _
  have hr : j.sortedResults.length = j.results.length :=
    List.length_insertionSort _ _
  simp only [layout, encode, normalized, recordRow, Job.layout_trimmed, ha,
    hr, List.append_assoc]

/-- A record within the limit of its reader. -/
def Within (limit : Nat) (j : OnChainJob) : Prop :=
  j.assignments.length ≤ limit ∧ j.results.length ≤ limit

theorem within_normalized : j.normalized.Within limit ↔ j.Within limit := by
  have ha : j.normalized.assignments.length = j.assignments.length :=
    List.length_insertionSort _ _
  have hr : j.normalized.results.length = j.results.length :=
    List.length_insertionSort _ _
  rw [Within, ha, hr, Within]

variable {data : Bytes}

theorem parse_iff (hlimit : limit < 2 ^ 32) :
    parse limit data = .ok j ↔
      data = j.layout ∧ j.validate = .ok () ∧ j.Within limit := by
  simp only [parse, marshalBinary, ok_iff, parseNested_eq_ok,
    parseWith_exact (exact_read hlimit)]
  constructor
  · rintro ⟨_, ⟨hdata, hread⟩, _, ⟨hvalid, _⟩, rfl⟩
    exact ⟨hdata, hvalid, hread.assignments.1, hread.results.1⟩
  · rintro ⟨hdata, hvalid, ha, hr⟩
    obtain ⟨hjob, hassign, hresult⟩ := validate_eq_ok hvalid
    exact ⟨j, ⟨hdata, hjob, ⟨ha, hassign⟩, hr, hresult⟩, _, ⟨hvalid, rfl⟩,
      rfl⟩

/-- A record reads back exactly when it is within the limit. -/
theorem parse_encode_iff {r : OnChainJob} (h : j.validate = .ok ())
    (hlimit : limit < 2 ^ 32) (ha : j.assignments.length < 2 ^ 32)
    (hr : j.results.length < 2 ^ 32) :
    parse limit j.encode = .ok r ↔ r = j.normalized ∧
      j.assignments.length ≤ limit ∧ j.results.length ≤ limit := by
  -- a limit wide enough for both records reads them apart
  have hwide : ∀ k : OnChainJob, j.encode = k.layout →
      k.validate = .ok () → k.assignments.length < 2 ^ 32 →
      k.results.length < 2 ^ 32 →
      parse (2 ^ 32 - 1) j.encode = .ok k := by
    intro k hk hvalid hka hkr
    exact (parse_iff (by decide)).2 ⟨hk, hvalid, by omega, by omega⟩
  have hback := hwide j.normalized (layout_normalized j).symm
    (validate_normalized h)
    ((List.length_insertionSort _ _).trans_lt ha)
    ((List.length_insertionSort _ _).trans_lt hr)
  rw [parse_iff hlimit]
  constructor
  · rintro ⟨hdata, hvalid, hassign, hresult⟩
    have hsame := hwide r hdata hvalid (by omega) (by omega)
    rw [hback] at hsame
    cases hsame
    exact ⟨rfl, within_normalized.1 ⟨hassign, hresult⟩⟩
  · rintro ⟨rfl, hin⟩
    exact ⟨(layout_normalized j).symm, validate_normalized h,
      within_normalized.2 hin⟩

/-- A valid record within the limit reads back normalized. -/
theorem parse_encode (h : j.validate = .ok ())
    (ha : j.assignments.length ≤ limit) (hr : j.results.length ≤ limit)
    (hfit : limit < 2 ^ 32) : parse limit j.encode = .ok j.normalized :=
  (parse_iff hfit).2 ⟨(layout_normalized j).symm, validate_normalized h,
    within_normalized.2 ⟨ha, hr⟩⟩

end OnChainJob

theorem parseOnChainJob_iff {data : Bytes} {j : OnChainJob} :
    parseOnChainJob data = .ok j ↔
      data = j.layout ∧ j.validate = .ok () ∧ j.Within 1024 :=
  OnChainJob.parse_iff (by decide)

end ZephyrChain
