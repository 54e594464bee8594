/-
The wire formats of headers, votes and certificates in both directions.

For each of the three, a byte string is read as a record exactly when it
is that record's layout and the record is readable, and the writer
writes that layout for the same records. So nothing is written that
cannot be read, and nothing is read that has a second encoding.

A certificate nests its votes behind lengths the reader bounds by 512
bytes; a readable vote has 249.
-/
import ZephyrChain.Codec.Exact
import ZephyrChain.Consensus.Validators

namespace ZephyrChain

open Lib

-- ==== headers

/-- What the reader of a header accepts. -/
structure GlobalHeader.Readable (h : GlobalHeader) : Prop where
  version : h.version = 2
  height : h.height ≠ 0
  roots : ¬ (IsZero32 h.network ∨ IsZero32 h.shardCommitmentRoot ∨
    IsZero32 h.validatorRoot)

theorem exact_header : Exact GlobalHeader.read GlobalHeader.canonicalBytes
    fun h => h.version = 2 ∧ h.height ≠ 0 := by
  refine Exact.of_fields (
    .field GlobalHeader.version Reader.exact_u16 fun _ =>
    .refuse (GlobalHeader.version · = 2) (fun _ h => by simp [h.2]) <|
    .field GlobalHeader.network Reader.exact_fixed fun _ =>
    .field GlobalHeader.height Reader.exact_u64 fun _ =>
    .refuse (GlobalHeader.height · ≠ 0) (fun _ h => by rw [h.2]) <|
    .field GlobalHeader.parentHash Reader.exact_fixed fun _ =>
    .field GlobalHeader.shardCommitmentRoot Reader.exact_fixed fun _ =>
    .field GlobalHeader.validatorRoot Reader.exact_fixed fun _ =>
    .field GlobalHeader.nextValidatorRoot Reader.exact_fixed fun _ =>
    .field GlobalHeader.dataRoot Reader.exact_fixed fun _ =>
    .field GlobalHeader.certificateHash Reader.exact_fixed fun _ =>
    .pure fun h => ?_) ?_ ?_
  · cases h
    simp [and_assoc]
  · simp [GlobalHeader.canonicalBytes]
  · simp

variable {h : GlobalHeader}

theorem parseGlobalHeader_eq_ok {data : Bytes} :
    parseGlobalHeader data = .ok h ↔
      data = h.canonicalBytes ∧ h.Readable := by
  refine (parse_checked exact_header).trans (and_congr_right fun _ => ?_)
  rw [refuse_eq_ok]
  constructor
  · rintro ⟨⟨hversion, hheight⟩, hroots⟩
    exact ⟨hversion, hheight, hroots⟩
  · intro hread
    exact ⟨⟨hread.version, hread.height⟩, hread.roots⟩

theorem GlobalHeader.canonicalBytes_inj {h' : GlobalHeader}
    (heq : h.canonicalBytes = h'.canonicalBytes) : h = h' := by
  cases h
  cases h'
  simp only [canonicalBytes, List.append_assoc] at heq
  obtain ⟨hversion, heq⟩ := List.append_inj heq (by simp)
  obtain ⟨hnetwork, heq⟩ := List.append_inj heq (by simp)
  obtain ⟨hheight, heq⟩ := List.append_inj heq (by simp)
  obtain ⟨hparent, heq⟩ := List.append_inj heq (by simp)
  obtain ⟨hshards, heq⟩ := List.append_inj heq (by simp)
  obtain ⟨hvalidators, heq⟩ := List.append_inj heq (by simp)
  obtain ⟨hnext, heq⟩ := List.append_inj heq (by simp)
  obtain ⟨hdata, hcertificate⟩ := List.append_inj heq (by simp)
  rw [Writer.u16_inj hversion, Vector.toList_inj.1 hnetwork,
    Writer.u64_inj hheight, Vector.toList_inj.1 hparent,
    Vector.toList_inj.1 hshards, Vector.toList_inj.1 hvalidators,
    Vector.toList_inj.1 hnext, Vector.toList_inj.1 hdata,
    Vector.toList_inj.1 hcertificate]

theorem marshalHeader_eq_ok {b : Bytes} :
    h.marshalBinary = .ok b ↔ b = h.canonicalBytes ∧ h.Readable := by
  simp only [GlobalHeader.marshalBinary, ok_iff, parseGlobalHeader_eq_ok]
  constructor
  · rintro ⟨h', ⟨hsame, hread⟩, rfl⟩
    cases GlobalHeader.canonicalBytes_inj hsame
    exact ⟨rfl, hread⟩
  · rintro ⟨rfl, hread⟩
    exact ⟨h, ⟨rfl, hread⟩, rfl⟩

theorem length_canonicalBytes_header (h : GlobalHeader) :
    h.canonicalBytes.length = 234 := by
  simp [GlobalHeader.canonicalBytes]

namespace Consensus

-- ==== votes

/-- What the reader of a vote accepts. -/
structure Vote.Readable (v : Vote) : Prop where
  key : v.publicKey.length = 65
  signature : v.signature.length = 64
  height : v.height ≠ 0
  ids : ¬ (IsZero32 v.network ∨ IsZero32 v.headerHash ∨ IsZero32 v.voter)

theorem exact_vote : Exact Vote.read Vote.encode fun v =>
    v.height ≠ 0 ∧ v.publicKey.length = 65 ∧ v.signature.length = 64 := by
  refine Exact.of_fields (
    .field Vote.network Reader.exact_fixed fun _ =>
    .field Vote.height Reader.exact_u64 fun _ =>
    .refuse (Vote.height · ≠ 0) (fun _ h => by rw [h.2]) <|
    .field Vote.round Reader.exact_u64 fun _ =>
    .field Vote.headerHash Reader.exact_fixed fun _ =>
    .field Vote.voter Reader.exact_fixed fun _ =>
    .field Vote.publicKey (Reader.exact_bytes _) fun _ =>
    .refuse (fun v : Vote => v.publicKey.length = 65)
      (fun _ h => by simp [h.2]) <|
    .field Vote.signature (Reader.exact_bytes _) fun _ =>
    .refuse (fun v : Vote => v.signature.length = 64)
      (fun _ h => by simp [h.2]) <|
    .pure fun v => ?_) ?_ ?_
  · cases v
    simp [and_assoc]
  · simp [Vote.encode]
  · intro v
    constructor
    · rintro ⟨-, -, hheight, -, -, -, -, hkey, -, hsignature, -⟩
      exact ⟨hheight, hkey, hsignature⟩
    · rintro ⟨hheight, hkey, hsignature⟩
      exact ⟨trivial, trivial, hheight, trivial, trivial, trivial, hkey.le,
        hkey, hsignature.le, hsignature, trivial⟩

variable {v : Vote}

theorem parseVote_eq_ok {data : Bytes} :
    parseVote data = .ok v ↔ data = v.encode ∧ v.Readable := by
  refine (parse_checked exact_vote).trans (and_congr_right fun _ => ?_)
  rw [refuse_eq_ok]
  constructor
  · rintro ⟨⟨hheight, hkey, hsignature⟩, hids⟩
    exact ⟨hkey, hsignature, hheight, hids⟩
  · intro h
    exact ⟨⟨h.height, h.key, h.signature⟩, h.ids⟩

theorem marshalVote_eq_ok {b : Bytes} :
    v.marshalBinary = .ok b ↔ b = v.encode ∧ v.Readable := by
  simp only [Vote.marshalBinary, ok_iff, not_or, not_not]
  constructor
  · rintro ⟨⟨hkey, hsignature, hheight, hnetwork, hheader, hvoter⟩, rfl⟩
    exact ⟨rfl, hkey, hsignature, hheight,
      not_or.2 ⟨hnetwork, not_or.2 ⟨hheader, hvoter⟩⟩⟩
  · rintro ⟨rfl, hkey, hsignature, hheight, hids⟩
    rw [not_or, not_or] at hids
    exact ⟨⟨hkey, hsignature, hheight, hids⟩, rfl⟩

theorem Vote.Readable.length_encode (h : v.Readable) :
    v.encode.length = 249 := by
  simp [Vote.encode, h.key, h.signature]

-- ==== certificates

namespace Certificate

/-- The layout of a certificate. -/
def encode (c : Certificate) : Bytes :=
  Writer.fixed c.network ++ Writer.u64 c.height ++ Writer.u64 c.round ++
    Writer.fixed c.headerHash ++
    Writer.u32 (UInt32.ofNat c.votes.length) ++
    c.votes.flatMap fun v => Writer.bytes v.encode

/-- What the reader of a certificate accepts. -/
structure Readable (c : Certificate) : Prop where
  some : c.votes ≠ []
  few : c.votes.length ≤ maxCertificateVotes
  votes : ∀ v ∈ c.votes, v.Readable
  height : c.height ≠ 0
  ids : ¬ (IsZero32 c.network ∨ IsZero32 c.headerHash)

end Certificate

theorem exact_voteField : Exact (do
      let raw ← Reader.bytes 512
      liftM (parseVote raw) : Reader Vote)
    (fun v => Writer.bytes v.encode) Vote.Readable :=
  exact_nested (fun _ _ => parseVote_eq_ok) fun _ h => by
    rw [h.length_encode]
    decide

theorem exact_certificate : Exact Certificate.read Certificate.encode
    fun c => c.height ≠ 0 ∧ (c.votes.length ≠ 0 ∧
      c.votes.length ≤ maxCertificateVotes) ∧
        ∀ v ∈ c.votes, v.Readable := by
  refine Exact.of_fields (
    .field Certificate.network Reader.exact_fixed fun _ =>
    .field Certificate.height Reader.exact_u64 fun _ =>
    .refuse (Certificate.height · ≠ 0) (fun _ h => by rw [h.2]) <|
    .field Certificate.round Reader.exact_u64 fun _ =>
    .field Certificate.headerHash Reader.exact_fixed fun _ =>
    Reader.row32 Certificate.votes
      (fun n => n ≠ 0 ∧ n ≤ maxCertificateVotes) exact_voteField
      (fun n => ?_) (fun _ h => h.2) (by decide) fun _ =>
    .pure fun c => ?_) ?_ ?_
  · rw [not_or, ← UInt32.toNat_inj, Nat.not_lt]
    rfl
  · cases c
    simp [and_assoc]
  · simp [Certificate.encode]
  · simp

variable {c : Certificate}

theorem parseCertificate_eq_ok {data : Bytes} :
    parseCertificate data = .ok c ↔ data = c.encode ∧ c.Readable := by
  simp only [parseCertificate, ok_iff, parseNested_eq_ok,
    parseWith_exact exact_certificate]
  constructor
  · rintro ⟨_, ⟨rfl, hheight, ⟨hsome, hfew⟩, hvotes⟩, hids, rfl⟩
    exact ⟨rfl, fun h => hsome (List.length_eq_zero_iff.2 h), hfew, hvotes,
      hheight, hids⟩
  · rintro ⟨rfl, h⟩
    exact ⟨c, ⟨rfl, h.height, ⟨fun hz => h.some (List.length_eq_zero_iff.1
      hz), h.few⟩, h.votes⟩, h.ids, rfl⟩

/-- The votes are written one by one. -/
theorem marshalVotes_eq_ok {votes : List Vote} {out : List Bytes} :
    votes.mapM Vote.marshalBinary = .ok out ↔
      out = votes.map Vote.encode ∧ ∀ v ∈ votes, v.Readable := by
  induction votes generalizing out with
  | nil =>
    rw [List.mapM_nil, pure_eq_ok]
    exact ⟨fun h => ⟨h.symm, List.forall_mem_nil _⟩, fun h => h.1.symm⟩
  | cons v votes ih =>
    simp only [List.mapM_cons, ok_iff, marshalVote_eq_ok, ih,
      List.map_cons, List.forall_mem_cons]
    constructor
    · rintro ⟨_, ⟨rfl, hv⟩, _, ⟨rfl, hvotes⟩, rfl⟩
      exact ⟨rfl, hv, hvotes⟩
    · rintro ⟨rfl, hv, hvotes⟩
      exact ⟨_, ⟨rfl, hv⟩, _, ⟨rfl, hvotes⟩, rfl⟩

theorem marshalCertificate_eq_ok {b : Bytes} :
    c.marshalBinary = .ok b ↔ b = c.encode ∧ c.Readable := by
  simp only [Certificate.marshalBinary, ok_iff, marshalVotes_eq_ok, not_or,
    not_lt]
  constructor
  · rintro ⟨⟨hsome, hfew, hheight, hids⟩, _, ⟨rfl, hvotes⟩, rfl⟩
    refine ⟨?_, hsome, hfew, hvotes, hheight, not_or.2 hids⟩
    simp only [Certificate.encode, List.flatMap_map]
  · rintro ⟨rfl, hsome, hfew, hvotes, hheight, hids⟩
    refine ⟨⟨hsome, hfew, hheight, not_or.1 hids⟩, _, ⟨rfl, hvotes⟩, ?_⟩
    simp only [Certificate.encode, List.flatMap_map]

theorem Certificate.Readable.length_encode (h : c.Readable) :
    c.encode.length = 84 + c.votes.length * 253 := by
  have hrow : ∀ votes : List Vote, (∀ v ∈ votes, v.Readable) →
      (votes.flatMap fun v => Writer.bytes v.encode).length =
        votes.length * 253 := by
    intro votes
    induction votes with
    | nil => exact fun _ => rfl
    | cons v votes ih =>
      intro hvotes
      obtain ⟨hv, hvotes⟩ := List.forall_mem_cons.1 hvotes
      rw [List.flatMap_cons, List.length_append, ih hvotes,
        Writer.length_bytes, hv.length_encode, List.length_cons]
      omega
  simp only [Certificate.encode, List.length_append, hrow _ h.votes,
    Writer.length_fixed, Writer.length_u64, Writer.length_u32]

end Consensus

end ZephyrChain
