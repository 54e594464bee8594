/-
The payloads of the token and compute operations, and the bytes they are
accepted from.

# What holds

The parsers take every field as it stands. A record is accepted from one
byte string only, its `layout`.

# Where it fails

The writers do not write a record as it stands: texts are trimmed and
the rows of a job are sorted. A payload with a blank around a name or
with its assignments out of order is accepted and is not what the
accepted record is written as (`paddedToken_not_canonical`). Every other
accepted payload is (`payload_canonical_iff`).
-/
import ZephyrChain.Assets
import ZephyrChain.Compute.Proofs.Codec

namespace ZephyrChain

open Lib

-- ==== tokens

namespace CreateToken

/-- The texts are written as they stand. -/
def Plain (c : CreateToken) : Prop :=
  trimSpace c.name = c.name ∧ trimSpace c.symbol = c.symbol

/-- The payload the record is read from. -/
def layout (c : CreateToken) : Bytes :=
  Writer.bytes c.name ++ Writer.bytes c.symbol ++
    Writer.u8 c.decimals ++ Writer.u8 c.supplyPolicy.toUInt8 ++
    Writer.u64 c.maxSupply ++ Writer.u64 c.initialSupply ++
    Writer.fixed c.mintAuthority ++ Writer.bool c.burnable ++
    Writer.bool c.transferable

/-- The record as it is written. -/
def trimmed (c : CreateToken) : CreateToken :=
  { c with name := trimSpace c.name, symbol := trimSpace c.symbol }

/-- Texts within the limits of the reader. -/
structure Short (c : CreateToken) : Prop where
  name : c.name.length ≤ 64
  symbol : c.symbol.length ≤ 16

theorem exact_read : Exact read layout Short := by
  refine Exact.of_fields (
    .field name (Reader.exact_bytes 64) fun _ =>
    .field symbol (Reader.exact_bytes 16) fun _ =>
    .field decimals Reader.exact_u8 fun _ =>
    .field (·.supplyPolicy.toUInt8) Reader.exact_u8 fun _ =>
    .field maxSupply Reader.exact_u64 fun _ =>
    .field initialSupply Reader.exact_u64 fun _ =>
    .field mintAuthority Reader.exact_fixed fun _ =>
    .field burnable Reader.exact_bool fun _ =>
    .field transferable Reader.exact_bool fun _ =>
    .pure fun c => ?_) ?_ ?_
  · cases c
    simp [SupplyPolicy.toUInt8_eq_iff, and_assoc]
  · simp [layout]
  · intro c
    constructor
    · rintro ⟨hname, hsymbol, -⟩
      exact ⟨hname, hsymbol⟩
    · intro h
      simpa using And.intro h.name h.symbol

theorem validate_trimmed (c : CreateToken) :
    c.trimmed.validate = c.validate := by
  refine congrArg (· >>= _) (refuse_congr _ ?_)
  simp only [trimmed, trimSpace_trimSpace]

theorem trimmed_eq_iff (c : CreateToken) : c.trimmed = c ↔ c.Plain := by
  constructor
  · intro h
    exact ⟨congrArg name h, congrArg symbol h⟩
  · rintro ⟨hname, hsymbol⟩
    unfold trimmed
    rw [hname, hsymbol]

theorem normalizes : Normalizes parseCreateToken marshalBinary layout trimmed
    fun c => c.Short ∧ c.validate = .ok () where
  parse_iff _ _ := parse_checked exact_read
  marshal_eq v hv := by
    rw [marshalBinary, hv.2]
    rfl
  norm_ok v hv := by
    refine ⟨⟨?_, ?_⟩, by rw [validate_trimmed, hv.2]⟩
    · exact (length_trimSpace_le v.name).trans hv.1.name
    · exact (length_trimSpace_le v.symbol).trans hv.1.symbol

end CreateToken

namespace Definition

/-- The texts are written as they stand. -/
def Plain (d : Definition) : Prop :=
  trimSpace d.name = d.name ∧ trimSpace d.symbol = d.symbol

theorem trimmed_eq_iff (d : Definition) : d.trimmed = d ↔ d.Plain := by
  constructor
  · intro h
    exact ⟨congrArg name h, congrArg symbol h⟩
  · rintro ⟨hname, hsymbol⟩
    unfold trimmed
    rw [hname, hsymbol]

theorem normalizes : Normalizes parseDefinition marshalBinary layout trimmed
    fun d => d.Short ∧ d.validate = .ok () where
  parse_iff _ _ := parseDefinition_iff
  marshal_eq v hv := by
    rw [marshalBinary, hv.2]
    rfl
  norm_ok v hv := by
    refine ⟨⟨?_, ?_⟩, by rw [validate_trimmed, hv.2]⟩
    · exact (length_trimSpace_le v.name).trans hv.1.name
    · exact (length_trimSpace_le v.symbol).trans hv.1.symbol

end Definition

-- ==== compute records

namespace Resources

/-- The capabilities are written as they stand. -/
def Plain (r : Resources) : Prop := ∀ c ∈ r.capabilities, trimSpace c = c

theorem trimmed_eq_iff (r : Resources) : r.trimmed = r ↔ r.Plain := by
  constructor
  · intro h c hc
    have hmap : r.capabilities.map trimSpace = r.capabilities :=
      congrArg capabilities h
    exact List.map_inj_left.1 (hmap.trans r.capabilities.map_id.symm) c hc
  · intro h
    have hmap : r.capabilities.map trimSpace = r.capabilities := by
      rw [List.map_congr_left h, List.map_id']
    unfold trimmed
    rw [hmap]

end Resources

theorem Offer.trimmed_eq_iff (o : Offer) :
    o.trimmed = o ↔ o.resources.Plain := by
  rw [← Resources.trimmed_eq_iff]
  constructor
  · exact fun h => congrArg resources h
  · intro h
    unfold trimmed
    rw [h]

theorem Job.trimmed_eq_iff (j : Job) :
    j.trimmed = j ↔ j.resources.Plain := by
  rw [← Resources.trimmed_eq_iff]
  constructor
  · exact fun h => congrArg resources h
  · intro h
    unfold trimmed
    rw [h]

namespace OnChainJob

/-- The rows are sorted and the capabilities are written as they
stand. -/
structure Plain (j : OnChainJob) : Prop where
  resources : j.job.resources.Plain
  assignments : j.assignments.Pairwise fun a b =>
    Bytes32.Before a.provider b.provider
  results : j.results.Pairwise fun a b =>
    Bytes32.Before a.provider b.provider

theorem normalizes : Normalizes parseOnChainJob marshalBinary layout
    normalized fun j => j.validate = .ok () ∧ j.Within 1024 where
  parse_iff _ _ := parseOnChainJob_iff
  marshal_eq v hv := by
    rw [marshalBinary, hv.1, layout_normalized]
    rfl
  norm_ok v hv := ⟨validate_normalized hv.1, within_normalized.2 hv.2⟩

end OnChainJob

theorem insertionSort_eq_iff {α : Type} (provider : α → AccountID)
    (xs : List α) :
    (xs.insertionSort fun a b => Bytes32.Before (provider a) (provider b)) =
        xs ↔
      xs.Pairwise fun a b => Bytes32.Before (provider a) (provider b) := by
  have : Std.Total fun a b : α => Bytes32.Before (provider a) (provider b) :=
    ⟨fun a b => Std.Total.total (provider a) (provider b)⟩
  have : IsTrans α fun a b => Bytes32.Before (provider a) (provider b) :=
    ⟨fun _ _ _ => Nat.le_trans⟩
  constructor
  · intro h
    rw [← h]
    exact List.pairwise_insertionSort _ xs
  · exact List.Pairwise.insertionSort_eq

theorem OnChainJob.normalized_eq_iff (j : OnChainJob) :
    j.normalized = j ↔ j.Plain := by
  constructor
  · intro h
    refine ⟨?_, ?_, ?_⟩
    · exact (Job.trimmed_eq_iff j.job).1 (congrArg job h)
    · exact (insertionSort_eq_iff Assignment.provider _).1
        (congrArg assignments h)
    · exact (insertionSort_eq_iff ComputeResult.provider _).1
        (congrArg results h)
  · intro h
    have hjob := (Job.trimmed_eq_iff j.job).2 h.resources
    have ha : j.sortedAssignments = j.assignments :=
      (insertionSort_eq_iff Assignment.provider _).2 h.assignments
    have hr : j.sortedResults = j.results :=
      (insertionSort_eq_iff ComputeResult.provider _).2 h.results
    unfold normalized
    rw [hjob, ha, hr]

-- ==== canonicity

/-- Every accepted payload is the only one of its record, and it is what
the record is written as exactly when the record meets a condition. -/
def CanonicalWhen {α : Type} (parse : Bytes → Except Error α)
    (marshal : α → Except Error Bytes) (plain : α → Prop) (b : Bytes) :
    Prop :=
  ∀ v, parse b = .ok v →
    (marshal v = .ok b ↔ plain v) ∧ ∀ b', parse b' = .ok v → b' = b

theorem canonicalWhen_of_normalizes {α : Type}
    {parse : Bytes → Except Error α} {marshal : α → Except Error Bytes}
    {layout : α → Bytes} {norm : α → α} {ok plain : α → Prop}
    (h : Normalizes parse marshal layout norm ok)
    (hplain : ∀ v, norm v = v ↔ plain v) (b : Bytes) :
    CanonicalWhen parse marshal plain b := by
  intro v hb
  refine ⟨?_, ?_⟩
  · rw [h.marshal_iff hb, hplain]
  · exact fun b' hb' => h.payload_unique hb hb'

/-- A payload is what its record is written as exactly when no text has a
blank around it and the rows of a job are in order. -/
theorem payload_canonical_iff (b : Bytes) :
    CanonicalWhen parseCreateToken CreateToken.marshalBinary
        CreateToken.Plain b ∧
      CanonicalWhen parseDefinition Definition.marshalBinary
        Definition.Plain b ∧
      CanonicalWhen parseOffer Offer.marshalBinary
        (fun o => o.resources.Plain) b ∧
      CanonicalWhen parseJob Job.marshalBinary
        (fun j => j.resources.Plain) b ∧
      CanonicalWhen parseOnChainJob OnChainJob.marshalBinary
        OnChainJob.Plain b :=
  ⟨canonicalWhen_of_normalizes CreateToken.normalizes
      CreateToken.trimmed_eq_iff b,
    canonicalWhen_of_normalizes Definition.normalizes
      Definition.trimmed_eq_iff b,
    canonicalWhen_of_normalizes Offer.normalizes Offer.trimmed_eq_iff b,
    canonicalWhen_of_normalizes Job.normalizes Job.trimmed_eq_iff b,
    canonicalWhen_of_normalizes OnChainJob.normalizes
      OnChainJob.normalized_eq_iff b⟩

-- ==== samples

/-- A token named by the given text. -/
def namedToken (name : Bytes) : CreateToken where
  name := name
  symbol := [65]
  decimals := 0
  supplyPolicy := .fixed
  maxSupply := 5
  initialSupply := 5
  mintAuthority := Vector.replicate 32 1
  burnable := false
  transferable := true

theorem parseCreateToken_named {name : Bytes} (hshort : name.length ≤ 64)
    (hvalid : (namedToken name).validate = .ok ()) :
    parseCreateToken (namedToken name).layout = .ok (namedToken name) := by
  refine (CreateToken.normalizes.parse_iff _ _).2
    ⟨rfl, ⟨hshort, ?_⟩, hvalid⟩
  show [(65 : UInt8)].length ≤ 16
  decide

theorem namedToken_canonical :
    parseCreateToken (namedToken [65]).layout = .ok (namedToken [65]) ∧
      (namedToken [65]).marshalBinary = .ok (namedToken [65]).layout := by
  have hparse : parseCreateToken (namedToken [65]).layout =
      .ok (namedToken [65]) :=
    parseCreateToken_named (by decide) (by decide)
  exact ⟨hparse, ((payload_canonical_iff _).1 _ hparse).1.2
    ⟨by decide, by decide⟩⟩

/-- A job on the chain that two providers have taken. -/
def sharedJob (first second : AccountID) : OnChainJob where
  id := Vector.replicate 32 1
  job :=
    { owner := Vector.replicate 32 1
      workloadHash := Vector.replicate 32 1
      inputRoot := Vector.replicate 32 1
      resources := ⟨1, 1, 0, 0, 0, 0, []⟩
      maxPrice := 2
      collateralRequired := 0
      verification := .replicated
      deadlineHeight := 9
      replicas := 2
      isPrivate := false }
  escrow := 2
  status := .assigned
  assignments := [⟨Vector.replicate 32 1, first, 1⟩,
    ⟨Vector.replicate 32 2, second, 1⟩]
  results := []

/-- Accepted payloads that are not what their records are written as: a
name with a blank in front, and assignments out of order. -/
theorem paddedToken_not_canonical :
    (parseCreateToken (namedToken [32, 65]).layout =
        .ok (namedToken [32, 65]) ∧
      (namedToken [32, 65]).marshalBinary ≠
        .ok (namedToken [32, 65]).layout) ∧
    ∃ b, parseOnChainJob b =
        .ok (sharedJob (Vector.replicate 32 2) (Vector.replicate 32 1)) ∧
      (sharedJob (Vector.replicate 32 2)
        (Vector.replicate 32 1)).marshalBinary ≠ .ok b := by
  have htoken : parseCreateToken (namedToken [32, 65]).layout =
      .ok (namedToken [32, 65]) :=
    parseCreateToken_named (by decide) (by decide)
  refine ⟨⟨htoken, ?_⟩, ?_⟩
  · intro h
    have hplain := (CreateToken.trimmed_eq_iff _).1
      ((CreateToken.normalizes.marshal_iff htoken).1 h)
    exact absurd hplain.1 (by decide)
  · have hjob := (OnChainJob.normalizes.parse_iff _
      (sharedJob (Vector.replicate 32 2) (Vector.replicate 32 1))).2
      ⟨rfl, by decide +kernel, by decide, by decide⟩
    refine ⟨_, hjob, ?_⟩
    intro h
    have hplain := (OnChainJob.normalized_eq_iff _).1
      ((OnChainJob.normalizes.marshal_iff hjob).1 h)
    exact absurd hplain.assignments (by decide +kernel)

end ZephyrChain
