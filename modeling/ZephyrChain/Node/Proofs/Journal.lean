/-
The commit journal in both directions.

# What holds

The reader takes the commitments and deltas in the order it finds them,
the writer writes them in the order of their shards. So an accepted
payload is the layout of what was read from it, as it was stored
(`parseGlobalCommitIntent_eq_ok`), and writing it again gives the layout
in shard order. A file that ends early is refused for its length.

# Where it fails

The reader stops at more than a million shards. Neither a runtime nor
the writer does: 1,000,001 commitments are 100 MB, and the writer's
bound is 256 MiB. The block of such a runtime is certified and
journaled, and its journal cannot be read (`largeTopology_unreadable`).
Every other intent that is written reads back (`journal_codec`).
-/
import ZephyrChain.Consensus.Proofs.Roots
import ZephyrChain.Consensus.Proofs.Wire
import ZephyrChain.Node.Proofs.Build
import ZephyrChain.Tx.Proofs.Wire
import ZephyrChain.WorldState.Proofs.Log

namespace ZephyrChain.Node

open Lib
open WorldState (readStoredObject)
open Consensus (ValidatorSet Certificate headerConsensusHash)
open Economics (Telemetry)

variable {C : Crypto} {T : Telemetry}

-- ==== records

theorem exact_commitment :
    Exact readCommitment Commitment.canonicalBytes fun _ => True := by
  refine Exact.of_fields (
    .field Commitment.shardID Reader.exact_u32 fun _ =>
    .field Commitment.stateRoot Reader.exact_fixed fun _ =>
    .field Commitment.receiptRoot Reader.exact_fixed fun _ =>
    .field Commitment.dataRoot Reader.exact_fixed fun _ =>
    .pure fun c => ?_) ?_ ?_
  · cases c
    simp [and_assoc]
  · simp [Commitment.canonicalBytes]
  · simp

/-- The limits the reader of a delta keeps to. -/
structure JournalShardDelta.InLimits (d : JournalShardDelta) : Prop where
  consumed : d.consumed.length ≤ maxJournalObjects
  created : d.created.length ≤ maxJournalObjects
  objects : ∀ o ∈ d.created, o.Valid

theorem exact_journalDelta : Exact readDelta GlobalCommitIntent.encodeDelta
    JournalShardDelta.InLimits := by
  refine Exact.of_fields (
    .field JournalShardDelta.shardID Reader.exact_u32 fun _ =>
    .field JournalShardDelta.preRoot Reader.exact_fixed fun _ =>
    .field JournalShardDelta.postRoot Reader.exact_fixed fun _ =>
    Reader.row32 JournalShardDelta.consumed (· ≤ maxJournalObjects)
      Reader.exact_fixed (fun _ => Nat.not_lt) (fun _ h => h) (by decide)
      fun _ =>
    Reader.row32 JournalShardDelta.created (· ≤ maxJournalObjects)
      WorldState.exact_storedObject (fun _ => Nat.not_lt) (fun _ h => h)
      (by decide) fun _ => .pure fun d => ?_) ?_ ?_
  · cases d
    simp [and_assoc]
  · simp [GlobalCommitIntent.encodeDelta]
  · intro d
    constructor
    · rintro ⟨-, -, -, ⟨hconsumed, -⟩, ⟨hcreated, hobjects⟩, -⟩
      exact ⟨hconsumed, hcreated, hobjects⟩
    · intro h
      exact ⟨trivial, trivial, trivial, ⟨h.consumed, fun _ _ => trivial⟩,
        ⟨h.created, h.objects⟩, trivial⟩

namespace GlobalCommitIntent

/-- The layout of an intent, with commitments and deltas as they are
stored. -/
def storedBytes (i : GlobalCommitIntent) : Bytes :=
  i.encodeFront ++ Writer.bytes i.header.canonicalBytes ++
    Writer.bytes i.certificate.encode ++ encodeCommitments i.commitments ++
    encodeDeltas i.deltas ++ Writer.bytes i.economicCheckpoint

/-- The limits the reader of an intent keeps to. -/
structure InLimits (i : GlobalCommitIntent) : Prop where
  shards : i.shardCount ≠ 0 ∧ i.shardCount ≤ maxJournalShards
  header : i.header.Readable
  certificate : i.certificate.Readable
  commitments : i.commitments.length = i.shardCount.toNat
  deltas : i.deltas.length ≤ i.shardCount.toNat
  delta : ∀ d ∈ i.deltas, d.InLimits
  checkpoint :
    i.economicCheckpoint.length ≤ maxEconomicCheckpointBytes + 8 + 32

end GlobalCommitIntent

variable {i : GlobalCommitIntent}

theorem length_header_le (h : GlobalHeader) :
    h.canonicalBytes.length ≤ (1048576 : UInt32).toNat := by
  rw [length_canonicalBytes_header]
  decide

theorem length_certificate_le {c : Certificate} (h : c.Readable) :
    c.encode.length ≤ (67108864 : UInt32).toNat := by
  have hfew := h.few
  rw [h.length_encode]
  show _ ≤ 67108864
  rw [Consensus.maxCertificateVotes] at hfew
  omega

theorem exact_journalIntent : Exact readIntent
    GlobalCommitIntent.storedBytes GlobalCommitIntent.InLimits := by
  refine Exact.of_fields (
    .literal globalCommitJournalVersion Reader.exact_u16 trivial <|
    .field GlobalCommitIntent.status Reader.exact_u8 fun _ =>
    .field GlobalCommitIntent.network Reader.exact_fixed fun _ =>
    .field GlobalCommitIntent.nativeToken Reader.exact_fixed fun _ =>
    .field GlobalCommitIntent.validatorRoot Reader.exact_fixed fun _ =>
    .field GlobalCommitIntent.shardCount Reader.exact_u32 fun _ =>
    .refuse (fun i : GlobalCommitIntent =>
        i.shardCount ≠ 0 ∧ i.shardCount ≤ maxJournalShards)
      (fun _ h => by rw [not_or, UInt32.not_lt, h.2]) <|
    .field GlobalCommitIntent.preHeight Reader.exact_u64 fun _ =>
    .field GlobalCommitIntent.preParentHash Reader.exact_fixed fun _ =>
    .nested GlobalCommitIntent.header (Reader.exact_bytes _)
      (fun _ _ => parseGlobalHeader_eq_ok) (fun h _ => length_header_le h)
      fun _ =>
    .nested GlobalCommitIntent.certificate (Reader.exact_bytes _)
      (fun _ _ => Consensus.parseCertificate_eq_ok)
      (fun _ h => length_certificate_le h) fun _ =>
    .row GlobalCommitIntent.commitments
      (fun i : GlobalCommitIntent => (· = i.shardCount.toNat))
      Reader.exact_u32
      (fun _ => UInt32.ofNat_toNat) (fun i k h => ?_) (fun i n h => ?_)
      exact_commitment fun _ =>
    .row GlobalCommitIntent.deltas
      (fun i : GlobalCommitIntent => (· ≤ i.shardCount.toNat))
      Reader.exact_u32 (fun _ => UInt32.ofNat_toNat)
      (fun i k h => toNat_count h i.shardCount.toNat_lt) (fun i n h => ?_)
      exact_journalDelta fun _ =>
    .field GlobalCommitIntent.economicCheckpoint (Reader.exact_bytes _)
      fun _ => .pure fun i => ?_) ?_ ?_
  · rw [h, UInt32.ofNat_toNat]
  · rw [not_not, ← UInt32.toNat_inj, h.1.1.1.1.2]
  · rw [UInt32.not_lt, UInt32.le_iff_toNat_le, h.1.1.1.1.1.2]
  · cases i
    simp [and_assoc]
  · simp [GlobalCommitIntent.storedBytes, GlobalCommitIntent.encodeFront,
      GlobalCommitIntent.encodeCommitments,
      GlobalCommitIntent.encodeDeltas]
  · intro i
    constructor
    · rintro ⟨-, -, -, -, -, hshards, -, -, hheader, hcertificate,
        ⟨hcommitments, -⟩, ⟨hdeltas, hdelta⟩, hcheckpoint, -⟩
      exact ⟨hshards, hheader, hcertificate, hcommitments, hdeltas, hdelta,
        hcheckpoint⟩
    · intro h
      exact ⟨trivial, trivial, trivial, trivial, trivial, h.shards, trivial,
        trivial, h.header, h.certificate,
        ⟨h.commitments, fun _ _ => trivial⟩, ⟨h.deltas, h.delta⟩,
        h.checkpoint, trivial⟩

-- ==== checks

theorem commitmentOf_perm {cs cs' : List Commitment} (hperm : cs'.Perm cs)
    (hnodup : (cs.map Commitment.shardID).Nodup) (shard : UInt32) :
    commitmentOf cs' shard = commitmentOf cs shard := by
  have hnodup' : (cs'.map Commitment.shardID).Nodup :=
    (hperm.map _).nodup_iff.2 hnodup
  refine Option.ext fun c => ?_
  rw [commitmentOf_eq_some hnodup', commitmentOf_eq_some hnodup,
    hperm.mem_iff]

namespace GlobalCommitIntent

theorem validate_eq_ok {i : GlobalCommitIntent} :
    i.validate C = .ok () ↔ i.validateFields C = .ok () ∧
      commitmentRoot C i.commitments = .ok i.header.shardCommitmentRoot ∧
      (¬ ∃ c ∈ i.commitments, i.shardCount ≤ c.shardID) ∧
      (i.commitments.map Commitment.shardID).Nodup ∧
      (i.deltas.map JournalShardDelta.shardID).Nodup ∧
      ∀ d ∈ i.deltas, d.validate i.shardCount i.commitments = .ok () := by
  simp only [validate, ok_iff, not_not, forM_eq_ok]
  constructor
  · rintro ⟨hfields, root, hroot, rfl, hrest⟩
    exact ⟨hfields, hroot, hrest⟩
  · rintro ⟨hfields, hroot, hrest⟩
    exact ⟨hfields, _, hroot, rfl, hrest⟩

/-- The intent with commitments and deltas in the order of their
shards. -/
def inShardOrder (i : GlobalCommitIntent) : GlobalCommitIntent :=
  { i with
    commitments := i.commitments.insertionSort
      fun a b => a.shardID ≤ b.shardID
    deltas := i.deltas.insertionSort fun a b => a.shardID ≤ b.shardID }

theorem commitments_perm (i : GlobalCommitIntent) :
    i.inShardOrder.commitments.Perm i.commitments :=
  List.perm_insertionSort _ _

theorem deltas_perm (i : GlobalCommitIntent) :
    i.inShardOrder.deltas.Perm i.deltas :=
  List.perm_insertionSort _ _

/-- The checks do not depend on the stored order. -/
theorem validate_inShardOrder {i : GlobalCommitIntent}
    (h : i.validate C = .ok ()) : i.inShardOrder.validate C = .ok () := by
  obtain ⟨hfields, hroot, hshards, hnodup, hdeltas, hdelta⟩ :=
    validate_eq_ok.1 h
  have hc := i.commitments_perm
  have hd := i.deltas_perm
  refine validate_eq_ok.2 ⟨?_, commitmentRoot_perm hc hroot, ?_,
    (hc.map _).nodup_iff.2 hnodup, (hd.map _).nodup_iff.2 hdeltas, ?_⟩
  · unfold validateFields at hfields ⊢
    simpa only [inShardOrder, List.length_insertionSort] using hfields
  · rintro ⟨c, hin, hge⟩
    exact hshards ⟨c, hc.mem_iff.1 hin, hge⟩
  · intro d hin
    have hd := hdelta d (hd.mem_iff.1 hin)
    unfold JournalShardDelta.validate at hd ⊢
    rw [commitmentOf_perm hc hnodup]
    exact hd

end GlobalCommitIntent

-- ==== payloads

namespace GlobalCommitIntent

variable (C) in
/-- What the writer accepts. -/
structure Writable (i : GlobalCommitIntent) : Prop where
  valid : i.validate C = .ok ()
  header : i.header.Readable
  certificate : i.certificate.Readable

variable (C) in
/-- What the reader accepts: the same, for a bounded number of shards. -/
structure Readable (i : GlobalCommitIntent) : Prop extends
    Writable C i where
  shards : i.shardCount ≤ maxJournalShards

variable {i : GlobalCommitIntent}

theorem Writable.inShardOrder (h : i.Writable C) :
    i.inShardOrder.Writable C :=
  ⟨validate_inShardOrder h.valid, h.header, h.certificate⟩

/-- The writer's checks keep every limit of the reader but one. -/
theorem Readable.inLimits (h : i.Readable C) : i.InLimits := by
  obtain ⟨hfields, -, -, -, -, hdelta⟩ := validate_eq_ok.1 h.valid
  simp only [validateFields, refuse_eq_ok, not_or, not_not, not_lt] at hfields
  obtain ⟨-, -, -, -, hsome, -, -, -, -, -, -, -, hcommitments, hdeltas,
    hcheckpoint⟩ := hfields
  refine ⟨⟨hsome, h.shards⟩, h.header, h.certificate, hcommitments, hdeltas,
    fun d hd => ?_, hcheckpoint⟩
  have hd := hdelta d hd
  simp only [JournalShardDelta.validate, ok_iff, not_or, not_lt, not_exists,
    not_and, not_not] at hd
  obtain ⟨⟨-, hconsumed, hcreated, -, -⟩, _, -, -, -, hobjects⟩ := hd
  exact ⟨hconsumed, hcreated, hobjects⟩

theorem marshalIntent_eq_ok {b : Bytes} :
    i.marshalBinary C = .ok b ↔
      b = i.inShardOrder.storedBytes ∧ i.Writable C := by
  simp only [marshalBinary, ok_iff, marshalHeader_eq_ok,
    Consensus.marshalCertificate_eq_ok]
  constructor
  · rintro ⟨hvalid, _, ⟨rfl, hheader⟩, _, ⟨rfl, hcertificate⟩, rfl⟩
    exact ⟨rfl, hvalid, hheader, hcertificate⟩
  · rintro ⟨rfl, hvalid, hheader, hcertificate⟩
    exact ⟨hvalid, _, ⟨rfl, hheader⟩, _, ⟨rfl, hcertificate⟩, rfl⟩

/-- Sorting moves records around and changes none. -/
theorem length_inShardOrder (i : GlobalCommitIntent) :
    i.inShardOrder.storedBytes.length = i.storedBytes.length := by
  have hc := i.commitments_perm
  have hd := i.deltas_perm
  have hcommitments := (hc.flatMap_right Commitment.canonicalBytes).length_eq
  have hdeltas := (hd.flatMap_right encodeDelta).length_eq
  simp only [storedBytes, encodeCommitments, encodeDeltas,
    List.length_append, Writer.length_u32, hcommitments, hdeltas]
  rfl

end GlobalCommitIntent

open GlobalCommitIntent

variable {data : Bytes}

/-- The accepted payloads, and what is made of them. -/
theorem parseGlobalCommitIntent_eq_ok :
    parseGlobalCommitIntent C data = .ok i ↔
      data = i.storedBytes ∧ i.Readable C := by
  simp only [parseGlobalCommitIntent, ok_iff, parseNested_eq_ok,
    parseWith_exact exact_journalIntent]
  constructor
  · rintro ⟨_, ⟨rfl, hlimits⟩, hvalid, rfl⟩
    exact ⟨rfl, ⟨hvalid, hlimits.header, hlimits.certificate⟩,
      hlimits.shards.2⟩
  · rintro ⟨rfl, hread⟩
    exact ⟨i, ⟨rfl, hread.inLimits⟩, hread.valid, rfl⟩

-- ==== files

variable (C) in
/-- Magic, length, payload and digest. -/
def journalFrame (payload : Bytes) : Bytes :=
  globalCommitJournalMagic ++ Writer.u32 (UInt32.ofNat payload.length) ++
    payload ++
    Writer.fixed (domainHash C "zephyr/global-commit-journal/v2" payload)

/-- A payload that fits a journal. -/
def Fits (payload : Bytes) : Prop :=
  payload.length ≠ 0 ∧ payload.length ≤ maxGlobalCommitJournalBytes

variable {payload : Bytes}

theorem Fits.lt (h : Fits payload) : payload.length < 2 ^ 32 :=
  Nat.lt_of_le_of_lt h.2 (by decide)

theorem journalBody_eq_ok :
    journalBody C data = .ok payload ↔
      data = journalFrame C payload ∧ Fits payload := by
  simp only [journalBody, ok_iff, not_or, not_not, not_lt]
  constructor
  · rintro ⟨⟨-, -, hmagic⟩, ⟨hsome, hfits, hlen⟩, hdigest, rfl⟩
    generalize hn : ofBe ((data.drop 4).take 4) = n at *
    have hpayload : ((data.drop 8).take n).length = n := by
      rw [List.length_take, List.length_drop]
      omega
    have hfield : Writer.u32 (UInt32.ofNat n) = (data.drop 4).take 4 := by
      have hfour : ((data.drop 4).take 4).length = 4 := by
        rw [List.length_take, List.length_drop]
        omega
      rw [Writer.u32, UInt32.toNat_ofNat', ← hn]
      exact Reader.beBytes_ofBe_mod hfour (by decide)
    refine ⟨?_, by rw [hpayload]; exact hsome, by rw [hpayload]; exact hfits⟩
    rw [journalFrame, hpayload, hfield, Writer.fixed, hdigest, ← hmagic]
    have hrest : (data.drop 8).take n ++ data.drop (8 + n) =
        data.drop 8 := by
      rw [← List.drop_drop, List.take_append_drop]
    have hback : (data.drop 4).take 4 ++ data.drop 8 = data.drop 4 := by
      rw [show 8 = 4 + 4 from rfl, ← List.drop_drop, List.take_append_drop]
    rw [List.append_assoc, List.append_assoc, hrest, hback,
      List.take_append_drop]
  · rintro ⟨rfl, hfits⟩
    obtain ⟨hlen, hmagic, hfield, hpayload, hdigest⟩ := frame_fields
      (domainHash C "zephyr/global-commit-journal/v2" payload)
      (show globalCommitJournalMagic.length = 4 from rfl) hfits.lt
    have hmax := hfits.2
    unfold journalFrame
    rw [hfield, hpayload, hdigest, hlen]
    exact ⟨⟨by omega, by omega, hmagic⟩, ⟨hfits.1, hfits.2, rfl⟩, rfl, rfl⟩

theorem decode_eq_ok :
    decodeGlobalCommitJournal C data = .ok i ↔
      data = journalFrame C i.storedBytes ∧ Fits i.storedBytes ∧
        i.Readable C := by
  simp only [decodeGlobalCommitJournal, bind_eq_ok, journalBody_eq_ok,
    parseGlobalCommitIntent_eq_ok]
  constructor
  · rintro ⟨_, ⟨rfl, hfits⟩, rfl, hread⟩
    exact ⟨rfl, hfits, hread⟩
  · rintro ⟨rfl, hfits, hread⟩
    exact ⟨_, ⟨rfl, hfits⟩, rfl, hread⟩

theorem encode_eq_ok {raw : Bytes} :
    i.encode C = .ok raw ↔ raw = journalFrame C i.inShardOrder.storedBytes ∧
      Fits i.inShardOrder.storedBytes ∧ i.Writable C := by
  simp only [encode, ok_iff, marshalIntent_eq_ok, not_or, not_lt]
  constructor
  · rintro ⟨_, ⟨rfl, hwrite⟩, hfits, rfl⟩
    exact ⟨rfl, hfits, hwrite⟩
  · rintro ⟨rfl, hfits, hwrite⟩
    exact ⟨_, ⟨rfl, hwrite⟩, hfits, rfl⟩

/-- A journal that ends early has the wrong length. -/
theorem decode_take (hfits : Fits payload) {n : Nat}
    (hn : n < (journalFrame C payload).length) :
    ∃ e, decodeGlobalCommitJournal C ((journalFrame C payload).take n) =
      .error e := by
  cases hdecode : decodeGlobalCommitJournal C
      ((journalFrame C payload).take n) with
  | error e => exact ⟨e, rfl⟩
  | ok i =>
    obtain ⟨hframe, hshort, -⟩ := decode_eq_ok.1 hdecode
    obtain ⟨hlen, -, hfield, -, -⟩ := frame_fields
      (domainHash C "zephyr/global-commit-journal/v2" payload)
      (show globalCommitJournalMagic.length = 4 from rfl) hfits.lt
    obtain ⟨hlen', -, hfield', -, -⟩ := frame_fields
      (domainHash C "zephyr/global-commit-journal/v2" i.storedBytes)
      (show globalCommitJournalMagic.length = 4 from rfl) hshort.lt
    change (journalFrame C payload).length = _ at hlen
    change (journalFrame C i.storedBytes).length = _ at hlen'
    change ofBe (((journalFrame C payload).drop 4).take 4) = _ at hfield
    change ofBe (((journalFrame C i.storedBytes).drop 4).take 4) = _
      at hfield'
    have hn' : n = 8 + i.storedBytes.length + 32 := by
      rw [← hlen', ← hframe, List.length_take]
      omega
    -- the length field is not cut off, so it tells the whole length
    rw [← hframe, List.drop_take, List.take_take,
      Nat.min_eq_left (by omega), hfield] at hfield'
    omega

/-- What is written reads back if the number of shards is within the
reader's bound. -/
theorem decode_encoded {raw : Bytes} (h : i.encode C = .ok raw) :
    decodeGlobalCommitJournal C raw = .ok i.inShardOrder ↔
      i.shardCount ≤ maxJournalShards := by
  obtain ⟨rfl, hfits, hwrite⟩ := encode_eq_ok.1 h
  rw [decode_eq_ok]
  constructor
  · rintro ⟨-, -, hread⟩
    exact hread.shards
  · intro hshards
    exact ⟨rfl, hfits, hwrite.inShardOrder, hshards⟩

/-- A written journal reads back exactly when the runtime has no more
shards than the reader takes. An accepted journal holds the layout of
what is read from it, and no other does; writing it again sorts it. A
written journal that ends early is refused. -/
theorem journal_codec (C : Crypto) (T : Telemetry) :
    (∀ (r : Runtime C T) (candidate : Candidate) (certificate : Certificate)
      (checkpoint : Bytes) (intent : GlobalCommitIntent) (raw : Bytes),
      r.buildGlobalCommitIntent candidate certificate checkpoint =
        .ok intent →
      intent.encode C = .ok raw →
      (decodeGlobalCommitJournal C raw = .ok intent.inShardOrder ↔
        r.shardCount ≤ maxJournalShards)) ∧
    (∀ (data : Bytes) (intent : GlobalCommitIntent),
      decodeGlobalCommitJournal C data = .ok intent →
      journalBody C data = .ok intent.storedBytes ∧
      (∀ data', decodeGlobalCommitJournal C data' = .ok intent →
        data' = data) ∧
      (∃ raw, intent.encode C = .ok raw ∧
        decodeGlobalCommitJournal C raw = .ok intent.inShardOrder) ∧
      (intent.encode C = .ok data ↔ intent.inShardOrder = intent)) ∧
    ∀ (intent : GlobalCommitIntent) (raw : Bytes),
      intent.encode C = .ok raw → ∀ n < raw.length,
      ∃ e, decodeGlobalCommitJournal C (raw.take n) = .error e := by
  refine ⟨?_, ?_, ?_⟩
  · intro r candidate certificate checkpoint intent raw hbuild hencode
    simp only [Runtime.buildGlobalCommitIntent, bind_eq_ok, exists_unit,
      pure_eq_ok] at hbuild
    obtain ⟨_, deltas, _, _, rfl⟩ := hbuild
    exact decode_encoded hencode
  · intro data intent h
    obtain ⟨rfl, hfits, hread⟩ := decode_eq_ok.1 h
    have hsorted : Fits intent.inShardOrder.storedBytes := by
      rw [Fits, length_inShardOrder]
      exact hfits
    have hencode := encode_eq_ok.2 ⟨rfl, hsorted, hread.toWritable⟩
    refine ⟨journalBody_eq_ok.2 ⟨rfl, hfits⟩,
      fun data' h' => (decode_eq_ok.1 h').1,
      ⟨_, hencode, (decode_encoded hencode).2 hread.shards⟩, ?_⟩
    rw [hencode, Except.ok.injEq]
    constructor
    · intro hsame
      have hagain := (decode_encoded hencode).2 hread.shards
      rw [hsame, h, Except.ok.injEq] at hagain
      exact hagain.symm
    · intro hsame
      rw [hsame]
  · intro intent raw hencode n hn
    obtain ⟨rfl, hfits, -⟩ := encode_eq_ok.1 hencode
    exact decode_take hfits hn

-- ==== many shards

/-- A key with a signature for every digest. -/
structure Signer (C : Crypto) where
  key : Bytes
  sign : Hash → Bytes
  length_key : key.length = 65
  onCurve : C.onCurve key = true
  verifies : ∀ digest,
    Consensus.verifyDigest C key digest (sign digest) = .ok ()

/-- No digest is the zero the formats reserve. -/
def NeverZero (C : Crypto) : Prop := ∀ payload, ¬ IsZero32 (C.sha256 payload)

theorem NeverZero.root (h : NeverZero C) {leaves : List Hash}
    (hleaves : ∀ x ∈ leaves, ¬ IsZero32 x) :
    ¬ IsZero32 (Merkle.root C leaves) := by
  rw [Merkle.root_eq_treeRoot, Merkle.treeRoot]
  cases Merkle.depth leaves.length with
  | zero =>
    have hmem : Merkle.leafAt C leaves 0 ∈ _ := Merkle.leafAt_mem 0
    rcases List.mem_cons.1 hmem with hempty | hin
    · show ¬ IsZero32 (Merkle.leafAt C leaves 0)
      rw [hempty]
      exact h _
    · exact hleaves _ hin
  | succ d => exact h _

namespace Signer

variable (s : Signer C)

def id : ValidatorID := validatorIDFromPublicKey C s.key

/-- The set in which the key holds all the power. -/
def validators (network : NetworkID) : ValidatorSet :=
  ⟨network, [⟨s.id, s.key, 1⟩]⟩

def vote (header : GlobalHeader) : Consensus.Vote :=
  let v : Consensus.Vote := ⟨header.network, header.height, 0,
    headerConsensusHash C header, s.id, s.key, []⟩
  { v with signature := s.sign (v.signingDigest C) }

/-- The certificate of that set for a header. -/
def certificate (header : GlobalHeader) : Certificate :=
  ⟨header.network, header.height, 0, headerConsensusHash C header,
    [s.vote header]⟩

theorem length_sign (digest : Hash) : (s.sign digest).length = 64 := by
  have h := s.verifies digest
  simp only [Consensus.verifyDigest, ok_iff, not_or, not_not] at h
  exact h.1.2

theorem validate_validators {network : NetworkID}
    (hnetwork : ¬ IsZero32 network) :
    (s.validators network).validate C = .ok () := by
  have hstep : Consensus.validatorStep C ⟨∅, 0⟩ ⟨s.id, s.key, 1⟩ =
      .ok ⟨insert s.id ∅, 0 + 1⟩ := by
    simp only [Consensus.validatorStep, ok_iff, and_true]
    refine ⟨?_, by simp [s.onCurve], Finset.notMem_empty _, by decide⟩
    rintro (hpower | hlen | hid)
    · exact absurd hpower (by decide)
    · exact hlen s.length_key
    · exact hid rfl
  have hsome : ¬ (IsZero32 network ∨ (s.validators network).validators =
      []) := not_or.2 ⟨hnetwork, List.cons_ne_nil _ _⟩
  simp only [ValidatorSet.validate, ok_iff]
  refine ⟨hsome, ⟨insert s.id ∅, 0 + 1⟩, ?_, trivial⟩
  show ([⟨s.id, s.key, 1⟩] : List Consensus.Validator).foldlM _ _ = _
  rw [List.foldlM_cons, hstep]
  rfl

theorem verifyCertificate (header : GlobalHeader) (hzero : NeverZero C)
    (hnetwork : ¬ IsZero32 header.network) (hheight : header.height ≠ 0) :
    (s.validators header.network).verifyCertificate C
      (s.certificate header) = .ok () := by
  have hmember : (s.validators header.network).member s.id =
      some ⟨s.id, s.key, 1⟩ :=
    List.find?_cons_of_pos (by simp)
  have hstep : ValidatorSet.voteStep C (s.validators header.network)
      (s.certificate header) ⟨∅, 0⟩ (s.vote header) =
        .ok ⟨insert s.id ∅, 0 + 1⟩ := by
    simp only [ValidatorSet.voteStep, ok_iff, not_or, not_not]
    exact ⟨⟨rfl, rfl, rfl, rfl⟩, Finset.notMem_empty _, ⟨s.id, s.key, 1⟩,
      hmember, ⟨rfl, rfl⟩, s.verifies _, rfl⟩
  simp only [ValidatorSet.verifyCertificate, ok_iff, not_or, not_not,
    s.validate_validators hnetwork, true_and]
  refine ⟨⟨rfl, hheight, hzero _⟩, ⟨insert s.id ∅, 0 + 1⟩, ?_, ?_⟩
  · show [s.vote header].foldlM _ _ = _
    rw [List.foldlM_cons, hstep]
    rfl
  · show ¬ (0 + 1 : UInt64) < Consensus.quorumPower (0 + 1)
    decide

theorem readable_certificate (header : GlobalHeader) (hzero : NeverZero C)
    (hnetwork : ¬ IsZero32 header.network) (hheight : header.height ≠ 0) :
    (s.certificate header).Readable where
  some := List.cons_ne_nil _ _
  few := by
    show 1 ≤ Consensus.maxCertificateVotes
    decide
  votes v hv := by
    rw [List.mem_singleton.1 hv]
    exact ⟨s.length_key, s.length_sign _, hheight,
      not_or.2 ⟨hnetwork, not_or.2 ⟨hzero _, hzero _⟩⟩⟩
  height := hheight
  ids := not_or.2 ⟨hnetwork, hzero _⟩

end Signer

namespace Runtime

/-- What building a shard with nothing to do produces. -/
def quietOutput (r : Runtime C T) (shard : UInt32) : ShardBuildOutput where
  results := []
  receipts := []
  delta := ⟨[], []⟩
  commitment := ⟨shard, (r.states shard).root C, Merkle.root C [],
    Merkle.root C []⟩
  dataLeaf := Merkle.leaf C "shard-data-root" (Merkle.root C []).toList
  observation := ⟨[], [], [], []⟩
  economicPendingStateHash := Bytes32.zero
  hasTransactions := false
  hasDelta := false

theorem buildShard_quiet {r : Runtime C T} (h : r.pendingEconomic = none)
    (height : UInt64) (shard : UInt32)
    (executed : Except Error (List Execution.Result)) :
    r.buildShard height shard .empty executed =
      .ok (r.quietOutput shard) := by
  have hpending : r.withPendingEpoch shard ⟨[], []⟩ =
      .ok (⟨[], []⟩, Bytes32.zero) := by
    rw [Runtime.withPendingEpoch, h]
  show (do let extended ← r.withPendingEpoch shard ⟨[], []⟩; _) = _
  rw [hpending]
  rfl

/-- The commitments of a block with nothing in it. -/
def quietCommitments (r : Runtime C T) : List Commitment :=
  (List.range r.shardCount.toNat).map fun shard =>
    (r.quietOutput (UInt32.ofNat shard)).commitment

/-- The header of that block. -/
def quietHeader (r : Runtime C T) (root : Hash) : GlobalHeader where
  version := 2
  network := r.network
  height := r.height + 1
  parentHash := r.parentHash
  shardCommitmentRoot := root
  validatorRoot := r.validatorRoot
  nextValidatorRoot := r.validatorRoot
  dataRoot := Merkle.root C ((List.range r.shardCount.toNat).map
    fun shard => (r.quietOutput (UInt32.ofNat shard)).dataLeaf)
  certificateHash := Bytes32.zero

/-- A runtime that is not halted and has no pending epoch builds it. -/
theorem build_quiet {r : Runtime C T} (hpending : r.pendingEconomic = none)
    (hflag : r.recoveryRequired = false) (hheight : r.height + 1 ≠ 0)
    {root : Hash}
    (hroot : commitmentRoot C r.quietCommitments = .ok root) :
    ∃ candidate : Candidate,
      (∀ script choices, BuildReturns C script r choices (r.height + 1) ∅
        (.ok candidate)) ∧
      candidate.header = r.quietHeader root ∧
      candidate.commitments = r.quietCommitments ∧ candidate.deltas = ∅ ∧
      candidate.economicPendingStateHash = Bytes32.zero := by
  let outputs := (List.range r.shardCount.toNat).map fun shard =>
    r.quietOutput (UInt32.ofNat shard)
  have hcommitments : outputs.map ShardBuildOutput.commitment =
      r.quietCommitments := List.map_map
  have hleaves : outputs.map ShardBuildOutput.dataLeaf =
      (List.range r.shardCount.toNat).map fun shard =>
        (r.quietOutput (UInt32.ofNat shard)).dataLeaf := List.map_map
  have hnone : ∀ {α : Type} (entry : ShardBuildOutput → Option α),
      (∀ shard, entry (r.quietOutput shard) = none) →
      gather outputs entry = ∅ := by
    intro α entry hentry
    rw [gather, List.foldl_map]
    simp only [hentry]
    exact List.foldl_fixed _
  have hhash : (outputs.head?.map
      ShardBuildOutput.economicPendingStateHash).getD Bytes32.zero =
        Bytes32.zero := by
    rw [← List.head?_map, List.map_map]
    cases List.range r.shardCount.toNat <;> rfl
  obtain ⟨candidate, hassemble⟩ : ∃ candidate,
      r.assemble (r.height + 1) outputs = .ok candidate := by
    simp only [assemble, hcommitments, hroot, ok_bind]
    exact ⟨_, rfl⟩
  refine ⟨candidate, fun script choices => ?_, ?_⟩
  · have hmap : ((List.range r.shardCount.toNat).mapM fun shard =>
        r.buildShard (r.height + 1) (UInt32.ofNat shard)
          (batchOf ∅ (UInt32.ofNat shard))
          (Execution.batchOutcome C (r.engine script (r.height + 1))
            (choices.orders (UInt32.ofNat shard))
            (batchOf ∅ (UInt32.ofNat shard)).transactions)) =
        .ok outputs := by
      have hempty : ∀ shard, batchOf ∅ shard = .empty := fun _ => rfl
      simp only [hempty, buildShard_quiet hpending]
      exact List.mapM_pure
    rw [buildReturns_iff, hmap, finishBuild,
      refuse_of_not _ (by rw [hflag]; exact Bool.false_ne_true), ok_bind,
      refuse_of_not _ (not_or.2 ⟨fun h => h rfl, hheight⟩), ok_bind,
      refuse_of_not _ (by simp), ok_bind, ok_bind, hassemble]
  · simp only [assemble, hcommitments, hroot, hleaves, ok_bind, pure_eq_ok]
      at hassemble
    subst hassemble
    exact ⟨rfl, rfl, hnone _ fun _ => rfl, hhash⟩

end Runtime

/-- A runtime at genesis with so many empty shards and a journal. -/
def quietRuntime (s : Signer C) (shardCount : UInt32) :
    Runtime C noTelemetry where
  network := sampleNetwork
  nativeToken := Vector.replicate 32 2
  validatorRoot := Merkle.root C
    ((s.validators sampleNetwork).sorted.map (ValidatorSet.leaf C))
  shardCount := shardCount
  states := fun _ => .memory WorldState.newMemory
  workers := 1
  height := 0
  parentHash := Bytes32.zero
  economicCollector := none
  economicEngine := none
  economicEpochLength := 0
  economicBalances := ⟨0, 0, 0, 0⟩
  pendingEconomic := none
  journal := some none
  history := none
  anchorStore := none
  recoveryRequired := false

section Quiet

variable {s : Signer C} {n : UInt32}

theorem network_quiet : ¬ IsZero32 sampleNetwork := by decide

theorem validatorRoot_quiet (hzero : NeverZero C) :
    ¬ IsZero32 (quietRuntime s n).validatorRoot := by
  show ¬ IsZero32 (Merkle.root C
    ((s.validators sampleNetwork).sorted.map (ValidatorSet.leaf C)))
  refine hzero.root fun x hx => ?_
  obtain ⟨v, -, rfl⟩ := List.mem_map.1 hx
  exact hzero _

theorem commitmentRoot_quiet (hzero : NeverZero C) (hn : n ≠ 0) :
    ∃ root, commitmentRoot C (quietRuntime s n).quietCommitments = .ok root ∧
      ¬ IsZero32 root := by
  have hsome : (quietRuntime s n).quietCommitments ≠ [] := by
    intro hnil
    have hlen := congrArg List.length hnil
    rw [Runtime.quietCommitments, List.length_map, List.length_range] at hlen
    exact hn (UInt32.toNat_inj.1 hlen)
  have hnodup : ((quietRuntime s n).quietCommitments.map
      Commitment.shardID).Nodup := by
    rw [Runtime.quietCommitments, List.map_map]
    exact ofNat_nodup n
  have hstate : ∀ c ∈ (quietRuntime s n).quietCommitments,
      ¬ IsZero32 c.stateRoot := by
    intro c hc
    obtain ⟨i, -, rfl⟩ := List.mem_map.1 hc
    exact hzero _
  refine ⟨_, commitmentRoot_eq_ok.2 ⟨sortedCommitments_eq_ok.2
    ⟨hsome, hnodup, hstate, rfl⟩, rfl⟩, hzero.root fun x hx => ?_⟩
  obtain ⟨payload, -, rfl⟩ := List.mem_map.1 hx
  exact hzero _

variable {root : Hash}

theorem height_quiet :
    ((quietRuntime s n).quietHeader root).height ≠ 0 := by
  show (0 + 1 : UInt64) ≠ 0
  decide

/-- The block such a runtime builds is certified by the signer. -/
theorem checkCandidate_quiet (hzero : NeverZero C) {candidate : Candidate}
    (hheader : candidate.header = (quietRuntime s n).quietHeader root)
    (hhash : candidate.economicPendingStateHash = Bytes32.zero) :
    (quietRuntime s n).checkCandidate candidate
      (s.certificate candidate.header) (s.validators sampleNetwork) =
        .ok () := by
  have hvalidators : (s.validators sampleNetwork).root C =
      .ok (quietRuntime s n).validatorRoot := by
    rw [ValidatorSet.root, s.validate_validators network_quiet]
    rfl
  have hcertificate := s.verifyCertificate
    ((quietRuntime s n).quietHeader root) hzero network_quiet height_quiet
  simp only [Runtime.checkCandidate, hheader, ok_iff, not_or, not_not]
  exact ⟨Bool.false_ne_true, ⟨rfl, rfl, rfl⟩, _, hvalidators, ⟨rfl, rfl⟩,
    ⟨rfl, rfl, rfl⟩, hcertificate, refuse_eq_ok.2 fun h => h hhash⟩

variable (s n) in
/-- The intent of that block. -/
def quietIntent (root : Hash) : GlobalCommitIntent where
  status := globalCommitPreparing
  network := sampleNetwork
  nativeToken := Vector.replicate 32 2
  validatorRoot := (quietRuntime s n).validatorRoot
  shardCount := n
  preHeight := 0
  preParentHash := Bytes32.zero
  header := (quietRuntime s n).quietHeader root
  certificate := s.certificate ((quietRuntime s n).quietHeader root)
  commitments := (quietRuntime s n).quietCommitments
  deltas := []
  economicCheckpoint := []

theorem length_quietCommitments :
    (quietRuntime s n).quietCommitments.length = n.toNat := by
  rw [Runtime.quietCommitments, List.length_map, List.length_range]
  rfl

theorem writable_quiet (hzero : NeverZero C) (hn : n ≠ 0)
    (hroot : commitmentRoot C (quietRuntime s n).quietCommitments = .ok root)
    (hne : ¬ IsZero32 root) : (quietIntent s n root).Writable C := by
  have htoken : ¬ IsZero32 (Vector.replicate 32 2) := by decide
  have hvalidators := validatorRoot_quiet hzero (s := s) (n := n)
  refine ⟨validate_eq_ok.2 ⟨refuse_eq_ok.2 ?_, hroot, ?_, ?_,
    List.nodup_nil, List.forall_mem_nil _⟩, ⟨rfl, height_quiet,
      not_or.2 ⟨network_quiet, not_or.2 ⟨hne, hvalidators⟩⟩⟩,
    s.readable_certificate _ hzero network_quiet height_quiet⟩
  · simp only [not_or, not_not, not_lt]
    exact ⟨fun h => h.1 rfl, network_quiet, htoken, hvalidators, hn, rfl,
      rfl, rfl, rfl, rfl, rfl, rfl, length_quietCommitments, Nat.zero_le _,
      Nat.zero_le _⟩
  · rintro ⟨c, hc, hle⟩
    obtain ⟨i, hi, rfl⟩ := List.mem_map.1 hc
    have hlt : i < n.toNat := List.mem_range.1 hi
    have hle : n.toNat ≤ (UInt32.ofNat i).toNat :=
      UInt32.le_iff_toNat_le.1 hle
    rw [toNat_count hlt.le n.toNat_lt] at hle
    omega
  · exact (sortedCommitments_eq_ok.1 (commitmentRoot_eq_ok.1 hroot).1).2.1

theorem length_quiet (hzero : NeverZero C) (root : Hash) :
    (quietIntent s n root).inShardOrder.storedBytes.length =
      734 + 100 * n.toNat := by
  have hcertificate := (s.readable_certificate
    ((quietRuntime s n).quietHeader root) hzero network_quiet
    height_quiet).length_encode
  have hone : ∀ c : Commitment, c.canonicalBytes.length = 100 :=
    fun c => by simp [Commitment.canonicalBytes]
  have hrow : ((quietRuntime s n).quietCommitments.flatMap
      Commitment.canonicalBytes).length = 100 * n.toNat := by
    simp only [List.length_flatMap, hone, List.map_const',
      List.sum_replicate, smul_eq_mul, length_quietCommitments,
      Nat.mul_comm]
  rw [length_inShardOrder]
  simp only [storedBytes, encodeFront, encodeCommitments, encodeDeltas,
    quietIntent, List.length_append, Writer.length_u16, Writer.length_u8,
    Writer.length_u32, Writer.length_u64, Writer.length_fixed,
    Writer.length_bytes, length_canonicalBytes_header, hcertificate, hrow,
    List.flatMap_nil, List.length_nil]
  show _ + (4 + (84 + 1 * 253)) + _ + _ + _ = _
  omega

/-- The block is built and certified, and its intent is written, if the
commitments fit. -/
theorem encode_quiet (s : Signer C) (hzero : NeverZero C) (hn : n ≠ 0)
    (hfits : 734 + 100 * n.toNat ≤ maxGlobalCommitJournalBytes) :
    ∃ (candidate : Candidate) (intent : GlobalCommitIntent) (raw : Bytes),
      (∀ script choices,
        BuildReturns C script (quietRuntime s n) choices 1 ∅
          (.ok candidate)) ∧
      (quietRuntime s n).checkCandidate candidate
        (s.certificate candidate.header) (s.validators sampleNetwork) =
          .ok () ∧
      (quietRuntime s n).buildGlobalCommitIntent candidate
        (s.certificate candidate.header) [] = .ok intent ∧
      intent.shardCount = n ∧ intent.encode C = .ok raw := by
  obtain ⟨root, hroot, hne⟩ := commitmentRoot_quiet hzero hn (s := s)
  obtain ⟨candidate, hbuild, hheader, hcommitments, hdeltas, hhash⟩ :=
    Runtime.build_quiet (r := quietRuntime s n) rfl rfl
      (show (0 + 1 : UInt64) ≠ 0 by decide) hroot
  have hwrite := writable_quiet hzero hn hroot hne
  have hlen := length_quiet hzero (s := s) (n := n) root
  have hchanged : (quietRuntime s n).changedShards candidate = [] := by
    rw [Runtime.changedShards, hdeltas]
    refine List.filter_eq_nil_iff.2 fun shard _ => ?_
    rw [decide_eq_true_iff]
    exact Finmap.notMem_empty
  refine ⟨candidate, quietIntent s n root, _, hbuild,
    checkCandidate_quiet hzero hheader hhash, ?_, rfl,
    encode_eq_ok.2 ⟨rfl, ⟨by omega, by omega⟩, hwrite⟩⟩
  simp only [Runtime.buildGlobalCommitIntent, hheader, hcommitments,
    hchanged, ok_iff, List.mapM_nil]
  refine ⟨?_, [], rfl, hwrite.valid, rfl⟩
  rintro (h | h | h)
  · exact h rfl
  · exact h rfl
  · exact h length_quietCommitments

end Quiet

/-- A scheme that accepts every signature of its length. -/
def lenientSigner : Signer lenientCrypto where
  key := List.replicate 65 4
  sign _ := List.replicate 64 1
  length_key := List.length_replicate
  onCurve := rfl
  verifies digest := by
    simp only [Consensus.verifyDigest, ok_iff]
    refine ⟨?_, Bool.noConfusion, ?_, Bool.noConfusion⟩
    · rintro (h | h) <;> exact h List.length_replicate
    · decide

theorem lenientCrypto_neverZero : NeverZero lenientCrypto := by
  intro payload
  show ¬ IsZero32 (Vector.replicate 32 1)
  decide

/-- The journal of a runtime with one shard reads back. -/
theorem journal_codec_one :
    ∃ (intent : GlobalCommitIntent) (raw : Bytes),
      intent.encode lenientCrypto = .ok raw ∧
      decodeGlobalCommitJournal lenientCrypto raw =
        .ok intent.inShardOrder := by
  obtain ⟨candidate, intent, raw, -, -, hbuild, -, hencode⟩ :=
    encode_quiet lenientSigner lenientCrypto_neverZero
      (show (1 : UInt32) ≠ 0 by decide) (by decide)
  have hread := (journal_codec lenientCrypto noTelemetry).1 _ _ _ _ _ _
    hbuild hencode
  exact ⟨intent, raw, hencode, hread.2 (show (1 : UInt32) ≤ _ by decide)⟩

/-- With 1,000,001 shards, and any hash and signatures: the block is
built, certified and journaled, and the journal is refused. -/
theorem largeTopology_unreadable :
    (∀ (C : Crypto) (s : Signer C), NeverZero C →
      ∃ (candidate : Candidate) (intent : GlobalCommitIntent) (raw : Bytes),
        (∀ script choices,
          BuildReturns C script (quietRuntime s 1000001) choices 1 ∅
            (.ok candidate)) ∧
        (quietRuntime s 1000001).checkCandidate candidate
          (s.certificate candidate.header) (s.validators sampleNetwork) =
            .ok () ∧
        (quietRuntime s 1000001).buildGlobalCommitIntent candidate
          (s.certificate candidate.header) [] = .ok intent ∧
        intent.encode C = .ok raw ∧
        decodeGlobalCommitJournal C raw ≠ .ok intent.inShardOrder) ∧
    Nonempty (Signer lenientCrypto) ∧ NeverZero lenientCrypto := by
  refine ⟨fun C s hzero => ?_, ⟨lenientSigner⟩, lenientCrypto_neverZero⟩
  obtain ⟨candidate, intent, raw, hreturns, hcertified, hbuild, hshards,
    hencode⟩ := encode_quiet s hzero (show (1000001 : UInt32) ≠ 0 by decide)
      (by decide)
  refine ⟨candidate, intent, raw, hreturns, hcertified, hbuild, hencode,
    fun hread => ?_⟩
  have hle := (decode_encoded hencode).1 hread
  rw [hshards] at hle
  exact absurd hle (by decide)

end ZephyrChain.Node
