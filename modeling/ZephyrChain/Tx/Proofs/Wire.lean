/-
The transaction codec in both directions.

# What holds

Every reader here is exact, so a byte string is accepted as one
transaction at most, and it is that transaction's own encoding
(`parseTransaction_eq_ok`). The intent determines all that is signed.

# Where it fails

The writer bounds the whole payload by 32 MiB and never looks at the
intent; the reader stops at an intent of more than 24 MiB. A transaction
in between is written and cannot be read (`longIntent_unreadable`); every
other one that is written with valid witnesses reads back
(`transaction_codec`).
-/
import ZephyrChain.Tx.Wire

namespace ZephyrChain

open Lib

-- ==== objects

theorem exact_outputSpec : Exact OutputSpec.read OutputSpec.canonicalBytes
    fun o => o.data.length ≤ maxObjectDataBytes.toNat := by
  refine Exact.of_fields (
    .field OutputSpec.owner Reader.exact_fixed fun _ =>
    .field (·.kind.toUInt16) Reader.exact_u16 fun _ =>
    .field OutputSpec.data (Reader.exact_bytes _) fun _ =>
    .pure fun o => ?_) ?_ ?_
  · cases o
    simp [Kind.toUInt16_eq_iff, and_assoc]
  · simp [OutputSpec.canonicalBytes]
  · simp

theorem length_spec_of_validate {o : OutputSpec}
    (h : o.validate = .ok ()) :
    o.data.length ≤ maxObjectDataBytes.toNat := by
  simp only [OutputSpec.validate, ok_iff, not_or] at h
  exact Nat.le_of_not_lt h.1.2

variable {data : Bytes}

theorem parseOutputSpec_eq_ok {o : OutputSpec} :
    parseOutputSpec data = .ok o ↔
      data = o.canonicalBytes ∧ o.validate = .ok () :=
  parse_checked_of exact_outputSpec fun _ => length_spec_of_validate

-- ==== state proofs

namespace State

/-- A proof that carries one sibling for each marked level. -/
def Proof.Valid (p : Proof Hash) : Prop :=
  bitmapCount p.bitmap = p.siblings.length

theorem bitmapCount_le (bitmap : Bytes32) :
    bitmapCount bitmap ≤ treeDepth := by
  have h := List.countP_le_length (p := fun i => bitmapBit bitmap i)
    (l := List.range treeDepth)
  rwa [List.length_range] at h

theorem exact_proof : Exact Proof.read Proof.marshalBinary
    fun p => p.siblings.length ≤ treeDepth := by
  refine Exact.of_fields (
    .field Proof.present Reader.exact_bool fun _ =>
    .field Proof.bitmap Reader.exact_fixed fun _ =>
    .row Proof.siblings (fun _ n => n ≤ treeDepth) Reader.exact_u16
      (fun _ => UInt16.ofNat_toNat) (fun _ k hk => ?_)
      (fun _ _ _ => Nat.not_lt) Reader.exact_fixed fun _ =>
    .pure fun p => ?_) ?_ ?_
  · have hdepth : treeDepth = 256 := rfl
    rw [UInt16.toNat_ofNat']
    exact Nat.mod_eq_of_lt (by omega)
  · cases p
    simp [and_assoc]
  · simp [Proof.marshalBinary]
  · simp

theorem parseProof_eq_ok {data : Bytes} {p : Proof Hash} :
    parseProof data = .ok p ↔ data = p.marshalBinary ∧ p.Valid := by
  refine (parse_checked_of exact_proof fun p h => ?_).trans ?_
  · rw [refuse_eq_ok, not_not] at h
    exact h ▸ bitmapCount_le p.bitmap
  · rw [refuse_eq_ok, not_not]
    rfl

theorem Proof.Valid.length_marshalBinary {p : Proof Hash} (h : p.Valid) :
    p.marshalBinary.length ≤ 16384 := by
  have hle : p.siblings.length ≤ 256 := h ▸ bitmapCount_le p.bitmap
  have hrow : (p.siblings.flatMap Writer.fixed).length =
      p.siblings.length * 32 := by
    rw [List.length_flatMap]
    simp
  simp only [Proof.marshalBinary, List.length_append, Writer.length_bool,
    Writer.length_fixed, Writer.length_u16, hrow]
  omega

end State

-- ==== intents

namespace Transaction

theorem exact_input : Exact readInput InputRef.encode fun _ => True := by
  refine Exact.of_fields (
    .field InputRef.objectID Reader.exact_fixed fun _ =>
    .field InputRef.version Reader.exact_u64 fun _ =>
    .field InputRef.objectHash Reader.exact_fixed fun _ =>
    .pure fun i => ?_) ?_ ?_
  · cases i
    simp [and_assoc]
  · simp [InputRef.encode]
  · simp

theorem length_canonicalBytes_spec {o : OutputSpec}
    (h : o.validate = .ok ()) :
    o.canonicalBytes.length ≤ (maxObjectDataBytes + 64).toNat := by
  have hdata := length_spec_of_validate h
  have hmax : maxObjectDataBytes.toNat = 1048576 := rfl
  have hlimit : (maxObjectDataBytes + 64).toNat = 1048640 := rfl
  simp only [OutputSpec.canonicalBytes, List.length_append,
    Writer.length_fixed, Writer.length_u16, Writer.length_bytes]
  omega

theorem exact_output : Exact readOutput
    (fun o => Writer.bytes o.canonicalBytes)
    fun o => o.validate = .ok () :=
  exact_nested (fun _ _ => parseOutputSpec_eq_ok)
    fun _ => length_canonicalBytes_spec

theorem exact_operation : Exact readOperation Operation.encode
    fun op => op.payload.length ≤ maxOpPayload := by
  refine Exact.of_fields (
    .field Operation.kind Reader.exact_u16 fun _ =>
    .field Operation.payload (Reader.exact_bytes _) fun _ =>
    .pure fun op => ?_) ?_ ?_
  · cases op
    simp
  · simp [Operation.encode]
  · intro op
    rw [true_and, and_true]
    rfl

theorem exact_salt : Exact readSalt (fun v => v.toList)
    fun _ => True := by
  refine Reader.exact_of_take (fun v => by simp) ?_ ?_
  · intro v
    apply Vector.ext
    intro i hi
    simp
  · intro b hb
    apply List.ext_getElem
    · simp [hb]
    · intro i h1 h2
      simp [List.getElem?_eq_getElem h2]

/-- The limits the reader of an intent keeps to. -/
structure InLimits (t : Transaction) : Prop where
  key : t.senderPublicKey.length ≤ 65
  inputs : t.inputs.length ≤ maxInputs
  outputs : t.outputs.length ≤ maxOutputs
  specs : ∀ o ∈ t.outputs, o.validate = .ok ()
  some : t.operations.length ≠ 0
  operations : t.operations.length ≤ maxOperations
  payloads : ∀ op ∈ t.operations, op.payload.length ≤ maxOpPayload

/-- An intent alone: nothing behind it yet. -/
def Unsigned (t : Transaction) : Prop := t.signature = [] ∧ t.witnesses = []

/-- A transaction without its signature and its witnesses. -/
def signedContent (t : Transaction) : Transaction :=
  { t with signature := [], witnesses := [] }

variable {t : Transaction}

theorem exact_intent : Exact readIntent intentBytes
    fun t => t.InLimits ∧ t.Unsigned := by
  refine Exact.of_fields (
    .field version Reader.exact_u16 fun _ =>
    .field network Reader.exact_fixed fun _ =>
    .field shardID Reader.exact_u32 fun _ =>
    .field sender Reader.exact_fixed fun _ =>
    .field senderPublicKey (Reader.exact_bytes 65) fun _ =>
    .field stateRoot Reader.exact_fixed fun _ =>
    Reader.row32 inputs (· ≤ maxInputs) exact_input
      (fun _ => Nat.not_lt) (fun _ h => h) (by decide) fun _ =>
    Reader.row32 outputs (· ≤ maxOutputs) exact_output
      (fun _ => Nat.not_lt) (fun _ h => h) (by decide) fun _ =>
    Reader.row32 operations (fun n => n ≠ 0 ∧ n ≤ maxOperations)
      exact_operation (fun n => ?_) (fun _ h => h.2) (by decide) fun _ =>
    .field fee Reader.exact_u64 fun _ =>
    .field validUntilHeight Reader.exact_u64 fun _ =>
    .field salt exact_salt fun _ => .pure_when Unsigned fun t => ?_) ?_ ?_
  · rw [not_or, ← UInt32.toNat_inj, Nat.not_lt]
    rfl
  · cases t
    simp [Unsigned, and_assoc]
  · simp [intentBytes]
  · intro t
    constructor
    · rintro ⟨-, -, -, -, hkey, -, ⟨hinputs, -⟩, ⟨houtputs, hspecs⟩,
        ⟨⟨hsome, hops⟩, hpayloads⟩, -, -, -, hunsigned⟩
      exact ⟨⟨hkey, hinputs, houtputs, hspecs, hsome, hops, hpayloads⟩,
        hunsigned⟩
    · rintro ⟨h, hunsigned⟩
      exact ⟨trivial, trivial, trivial, trivial, h.key, trivial,
        ⟨h.inputs, fun _ _ => trivial⟩, ⟨h.outputs, h.specs⟩,
        ⟨⟨h.some, h.operations⟩, h.payloads⟩, trivial, trivial, trivial,
        hunsigned⟩

theorem parseIntent_eq_ok {data : Bytes} :
    parseIntent data = .ok t ↔
      data = t.intentBytes ∧ t.InLimits ∧ t.Unsigned :=
  parseWith_exact exact_intent

/-- A transaction that passes its own checks is within the limits. -/
theorem inLimits_of_validateStatic {C : Crypto}
    (h : t.validateStatic C = .ok ()) : t.InLimits := by
  simp only [validateStatic, ok_iff, forM_eq_ok, not_or, not_not,
    not_exists, not_and, not_lt] at h
  obtain ⟨-, -, hkey, -, -, ⟨-, hinputs, houtputs, hsome, hops⟩, -, hspecs,
    hpayloads, -⟩ := h
  exact ⟨Nat.le_of_eq hkey, hinputs, houtputs, hspecs, hsome, hops,
    fun op hop => (hpayloads op hop).2⟩

end Transaction

-- ==== witnesses

/-- A witness with a valid object and a well-formed proof. -/
def Witness.Valid (w : Witness) : Prop := w.object.Valid ∧ w.proof.Valid

namespace Transaction

theorem exact_witness : Exact readWitness Witness.encode
    Witness.Valid := by
  refine Exact.of_fields (
    .nested Witness.object (Reader.exact_bytes _)
      (fun _ _ => parseObject_eq_ok)
      (fun _ => length_canonicalBytes_object) fun _ =>
    .nested Witness.proof (Reader.exact_bytes _)
      (fun _ _ => State.parseProof_eq_ok)
      (fun _ h => h.length_marshalBinary) fun _ =>
    .pure fun w => ?_) ?_ ?_
  · cases w
    simp
  · simp [Witness.encode]
  · simp [Witness.Valid]

end Transaction

-- ==== transactions

variable {C : Crypto} {t : Transaction}

theorem length_signature_of_validateStatic
    (h : t.validateStatic C = .ok ()) : t.signature.length = 64 := by
  simp only [Transaction.validateStatic, verifySignature, ok_iff,
    not_not] at h
  exact h.2.2.2.2.2.2.2.2.2.1

/-- The sections of a valid transaction read back. -/
theorem run_read (hstatic : t.validateStatic C = .ok ())
    (hlen : t.witnesses.length = t.inputs.length)
    (hintent : t.intentBytes.length ≤ maxIntentBytes.toNat)
    (hvalid : ∀ w ∈ t.witnesses, w.Valid) :
    (Transaction.read C).run t.wireBytes = .ok (t, []) := by
  have hlimits := Transaction.inLimits_of_validateStatic hstatic
  have hsig := length_signature_of_validateStatic hstatic
  have h64 : t.signature.length ≤ (64 : UInt32).toNat := Nat.le_of_eq hsig
  have hcount := toNat_count (hlen ▸ hlimits.inputs) (by decide)
  have hnumber : ¬ (maxInputs < (UInt32.ofNat t.witnesses.length).toNat ∨
      (UInt32.ofNat t.witnesses.length).toNat ≠ t.inputs.length) := by
    rw [hcount, hlen, not_or]
    exact ⟨Nat.not_lt.2 hlimits.inputs, fun hne => hne rfl⟩
  have hparse : parseIntent t.intentBytes = .ok t.signedContent :=
    Transaction.parseIntent_eq_ok.2 ⟨rfl, ⟨hlimits.1, hlimits.2, hlimits.3,
      hlimits.4, hlimits.5, hlimits.6, hlimits.7⟩, rfl, rfl⟩
  have hwire : t.wireBytes = Writer.bytes t.intentBytes ++
      (Writer.bytes t.signature ++
        (Writer.u32 (UInt32.ofNat t.witnesses.length) ++
          (t.witnesses.flatMap Witness.encode ++ []))) := by
    simp only [Transaction.wireBytes, List.append_assoc, List.append_nil]
  rw [hwire]
  unfold Transaction.read
  refine run_bind_eq_ok.2 ⟨_, _, Reader.run_orFail.2
    ((Reader.exact_bytes _).parses hintent _), ?_⟩
  refine run_bind_eq_ok.2 ⟨_, _, run_lift_eq_ok.2 ⟨hparse, rfl⟩, ?_⟩
  refine run_bind_eq_ok.2 ⟨_, _, Reader.run_orFail.2
    ((Reader.exact_bytes _).parses h64 _), ?_⟩
  refine run_bind_eq_ok.2 ⟨(), _, run_lift_eq_ok.2
    ⟨refuse_eq_ok.2 fun hne => hne hsig, rfl⟩, ?_⟩
  refine run_bind_eq_ok.2 ⟨_, _, Reader.run_orFail.2
    (Reader.exact_u32.parses trivial _), ?_⟩
  refine run_bind_eq_ok.2 ⟨(), _, run_lift_eq_ok.2
    ⟨refuse_eq_ok.2 hnumber, rfl⟩, ?_⟩
  refine run_bind_eq_ok.2 ⟨_, _, Reader.run_orFail.2
    ((Transaction.exact_witness.readMany _).parses
      ⟨hcount.symm, hvalid⟩ _), ?_⟩
  refine run_bind_eq_ok.2 ⟨(), _, Reader.run_orFail.2
    (run_done_eq_ok.2 ⟨rfl, rfl⟩), ?_⟩
  exact run_bind_eq_ok.2 ⟨(), _, run_lift_eq_ok.2 ⟨hstatic, rfl⟩,
    run_pure_eq_ok.2 ⟨rfl, rfl⟩⟩

/-- The payloads the parser accepts, and what it makes of them. -/
theorem parseTransaction_eq_ok :
    parseTransaction C data = .ok t ↔
      data = t.wireBytes ∧ t.validateStatic C = .ok () ∧
        t.witnesses.length = t.inputs.length ∧
        t.wireBytes.length ≤ maxWireBytes ∧
        t.intentBytes.length ≤ maxIntentBytes.toNat ∧
        ∀ w ∈ t.witnesses, w.Valid := by
  constructor
  · intro h
    simp only [parseTransaction, ok_iff, not_or] at h
    obtain ⟨⟨-, hwire⟩, ⟨out, final⟩, h, rfl⟩ := h
    unfold Transaction.read at h
    obtain ⟨intent, r₁, h₁, h⟩ := run_bind_eq_ok.1 h
    obtain ⟨signed, r₂, h₂, h⟩ := run_bind_eq_ok.1 h
    obtain ⟨signature, r₃, h₃, h⟩ := run_bind_eq_ok.1 h
    obtain ⟨_, r₄, h₄, h⟩ := run_bind_eq_ok.1 h
    obtain ⟨count, r₅, h₅, h⟩ := run_bind_eq_ok.1 h
    obtain ⟨_, r₆, h₆, h⟩ := run_bind_eq_ok.1 h
    obtain ⟨witnesses, r₇, h₇, h⟩ := run_bind_eq_ok.1 h
    obtain ⟨_, r₈, h₈, h⟩ := run_bind_eq_ok.1 h
    obtain ⟨_, r₉, h₉, h⟩ := run_bind_eq_ok.1 h
    obtain ⟨hout, -⟩ := run_pure_eq_ok.1 h
    have hout' : out = { signed with signature, witnesses } := hout
    subst hout'
    obtain ⟨h₁, hintent⟩ :=
      (Reader.exact_bytes _ _ _ _).1 (Reader.run_orFail.1 h₁)
    obtain ⟨h₃, -⟩ :=
      (Reader.exact_bytes _ _ _ _).1 (Reader.run_orFail.1 h₃)
    obtain ⟨h₅, -⟩ := (Reader.exact_u32 _ _ _).1 (Reader.run_orFail.1 h₅)
    obtain ⟨h₇, hlen, hvalid⟩ := (Transaction.exact_witness.readMany _ _ _
      _).1 (Reader.run_orFail.1 h₇)
    obtain ⟨h₈, -⟩ := run_done_eq_ok.1 (Reader.run_orFail.1 h₈)
    rw [run_lift_eq_ok] at h₂ h₄ h₆ h₉
    rw [Transaction.parseIntent_eq_ok] at h₂
    rw [refuse_eq_ok, not_or, not_not] at h₆
    obtain ⟨⟨hsame, -⟩, h₂⟩ := h₂
    rw [hsame] at h₁ hintent
    have hbytes : data =
        Transaction.wireBytes { signed with signature, witnesses } := by
      rw [h₁, ← h₂, h₃, ← h₄.2, h₅, ← h₆.2, h₇, h₈]
      simp only [Transaction.wireBytes, hlen, UInt32.ofNat_toNat,
        List.append_assoc, List.append_nil]
      rfl
    rw [hbytes] at hwire
    exact ⟨hbytes, h₉.1, hlen.trans h₆.1.2, Nat.le_of_not_lt hwire, hintent,
      hvalid⟩
  · rintro ⟨rfl, hstatic, hlen, hwire, hintent, hvalid⟩
    have hsome : ¬ (t.wireBytes.length = 0 ∨
        maxWireBytes < t.wireBytes.length) := by
      refine not_or.2 ⟨?_, Nat.not_lt.2 hwire⟩
      simp only [Transaction.wireBytes, List.length_append,
        Writer.length_bytes]
      omega
    rw [parseTransaction, refuse_of_not _ hsome, ok_bind,
      run_read hstatic hlen hintent hvalid]
    rfl

theorem marshalBinary_eq_ok {b : Bytes} :
    t.marshalBinary C = .ok b ↔
      b = t.wireBytes ∧ t.validateStatic C = .ok () ∧
        t.witnesses.length = t.inputs.length ∧
        t.wireBytes.length ≤ maxWireBytes := by
  simp only [Transaction.marshalBinary, ok_iff, not_not, not_lt]
  constructor
  · rintro ⟨hstatic, hlen, hwire, rfl⟩
    exact ⟨rfl, hstatic, hlen, hwire⟩
  · rintro ⟨rfl, hstatic, hlen, hwire⟩
    exact ⟨hstatic, hlen, hwire, rfl⟩

-- ==== signed content

namespace Transaction

/-- Every length of the intent fits the 32-bit field it is written to. -/
structure Framed (t : Transaction) : Prop where
  key : t.senderPublicKey.length < 2 ^ 32
  inputs : t.inputs.length < 2 ^ 32
  outputs : t.outputs.length < 2 ^ 32
  specs : ∀ o ∈ t.outputs, o.canonicalBytes.length < 2 ^ 32
  operations : t.operations.length < 2 ^ 32
  payloads : ∀ op ∈ t.operations, op.payload.length < 2 ^ 32

theorem separates_input : Separates InputRef.encode fun _ => True := by
  intro i j s t _ _ h
  cases i
  cases j
  simp only [InputRef.encode, List.append_assoc] at h
  obtain ⟨hid, h⟩ := List.append_inj h (by simp)
  obtain ⟨hversion, h⟩ := List.append_inj h (by simp)
  obtain ⟨hhash, hrest⟩ := List.append_inj h (by simp)
  rw [Vector.toList_inj.1 hid, Writer.u64_inj hversion,
    Vector.toList_inj.1 hhash]
  exact ⟨rfl, hrest⟩

theorem separates_output : Separates
    (fun o : OutputSpec => Writer.bytes o.canonicalBytes)
    fun o => o.canonicalBytes.length < 2 ^ 32 := by
  intro o o' s t ho ho' h
  obtain ⟨hbytes, hrest⟩ := separates_bytes _ _ _ _ ho ho' h
  exact ⟨OutputSpec.canonicalBytes_inj hbytes, hrest⟩

theorem separates_operation : Separates Operation.encode
    fun op => op.payload.length < 2 ^ 32 := by
  intro op op' s t hop hop' h
  simp only [Operation.encode, List.append_assoc] at h
  obtain ⟨hkind, h⟩ := List.append_inj h (by simp)
  obtain ⟨hpayload, hrest⟩ := separates_bytes _ _ _ _ hop hop' h
  have hnumber := Writer.u16_inj hkind
  cases op
  cases op'
  cases hpayload
  cases hnumber
  exact ⟨rfl, hrest⟩

/-- Equal counts on the wire are equal counts. -/
theorem length_of_count {n k : Nat} (hn : n < 2 ^ 32) (hk : k < 2 ^ 32)
    (h : Writer.u32 (UInt32.ofNat n) = Writer.u32 (UInt32.ofNat k)) :
    n = k := by
  have hnat := congrArg UInt32.toNat (Writer.u32_inj h)
  rw [UInt32.toNat_ofNat', UInt32.toNat_ofNat', Nat.mod_eq_of_lt hn,
    Nat.mod_eq_of_lt hk] at hnat
  exact hnat

/-- The intent determines all that is signed. -/
theorem signedContent_of_intentBytes {t u : Transaction} (ht : t.Framed)
    (hu : u.Framed) (h : t.intentBytes = u.intentBytes) :
    t.signedContent = u.signedContent := by
  simp only [intentBytes, List.append_assoc] at h
  obtain ⟨hversion, h⟩ := List.append_inj h (by simp)
  obtain ⟨hnetwork, h⟩ := List.append_inj h (by simp)
  obtain ⟨hshard, h⟩ := List.append_inj h (by simp)
  obtain ⟨hsender, h⟩ := List.append_inj h (by simp)
  obtain ⟨hkey, h⟩ := separates_bytes _ _ _ _ ht.key hu.key h
  obtain ⟨hroot, h⟩ := List.append_inj h (by simp)
  obtain ⟨hinCount, h⟩ := List.append_inj h (by simp)
  obtain ⟨hinputs, h⟩ := separates_input.flatMap (fun _ _ => trivial)
    (fun _ _ => trivial) (length_of_count ht.inputs hu.inputs hinCount) h
  obtain ⟨houtCount, h⟩ := List.append_inj h (by simp)
  obtain ⟨houtputs, h⟩ := separates_output.flatMap ht.specs hu.specs
    (length_of_count ht.outputs hu.outputs houtCount) h
  obtain ⟨hopCount, h⟩ := List.append_inj h (by simp)
  obtain ⟨hops, h⟩ := separates_operation.flatMap ht.payloads hu.payloads
    (length_of_count ht.operations hu.operations hopCount) h
  obtain ⟨hfee, h⟩ := List.append_inj h (by simp)
  obtain ⟨huntil, hsalt⟩ := List.append_inj h (by simp)
  unfold signedContent
  rw [Writer.u16_inj hversion, Vector.toList_inj.1 hnetwork,
    Writer.u32_inj hshard, Vector.toList_inj.1 hsender, hkey,
    Vector.toList_inj.1 hroot, hinputs, houtputs, hops,
    Writer.u64_inj hfee, Writer.u64_inj huntil, Vector.toList_inj.1 hsalt]

/-- What the hash of a transaction is taken of. -/
def idFrame (t : Transaction) : Bytes :=
  domainFrame "zephyr/transaction/id/v2" t.intentBytes

theorem intentBytes_of_idFrame {t u : Transaction}
    (h : t.idFrame = u.idFrame) : t.intentBytes = u.intentBytes :=
  (domainFrame_inj (by decide) (by decide) h).2

end Transaction

/-- What is written reads back exactly when the intent is within the
reader's bound; what is read is written the same way; and the intent, or
its hash, determines what is signed. -/
theorem transaction_codec (C : Crypto) :
    (∀ t b, t.marshalBinary C = .ok b → (∀ w ∈ t.witnesses, w.Valid) →
      (parseTransaction C b = .ok t ↔
        t.intentBytes.length ≤ maxIntentBytes.toNat)) ∧
    (∀ b t, parseTransaction C b = .ok t → t.marshalBinary C = .ok b) ∧
    (∀ t u : Transaction, t.Framed → u.Framed →
      t.intentBytes = u.intentBytes → t.signedContent = u.signedContent) ∧
    ∀ t u : Transaction, t.Framed → u.Framed →
      (C.sha256 t.idFrame = C.sha256 u.idFrame → t.idFrame = u.idFrame) →
      t.id C = u.id C → t.signedContent = u.signedContent := by
  refine ⟨?_, ?_, fun t u => Transaction.signedContent_of_intentBytes, ?_⟩
  · intro t b hmarshal hvalid
    obtain ⟨rfl, hstatic, hlen, hwire⟩ := marshalBinary_eq_ok.1 hmarshal
    rw [parseTransaction_eq_ok]
    constructor
    · rintro ⟨-, -, -, -, hintent, -⟩
      exact hintent
    · intro hintent
      exact ⟨rfl, hstatic, hlen, hwire, hintent, hvalid⟩
  · intro b t hparse
    obtain ⟨rfl, hstatic, hlen, hwire, -, -⟩ :=
      parseTransaction_eq_ok.1 hparse
    exact marshalBinary_eq_ok.2 ⟨rfl, hstatic, hlen, hwire⟩
  · intro t u ht hu hcollision hid
    have hframe : t.idFrame = u.idFrame := hcollision hid
    exact Transaction.signedContent_of_intentBytes ht hu
      (Transaction.intentBytes_of_idFrame hframe)

-- ==== long intents

/-- A hash and a curve that accept everything. -/
def lenientCrypto : Crypto where
  sha256 _ := Vector.replicate 32 1
  onCurve _ := true
  ecdsaVerify _ _ _ _ := true

/-- A transaction of so many operations with a payload of so many
bytes each. -/
def bulkTransaction (count size : Nat) : Transaction where
  version := txVersion
  network := Vector.replicate 32 1
  shardID := 0
  sender := Vector.replicate 32 1
  senderPublicKey := List.replicate 65 4
  stateRoot := Vector.replicate 32 1
  inputs := []
  outputs := []
  operations := List.replicate count ⟨Op.contractCall, List.replicate size 0⟩
  fee := 0
  validUntilHeight := 0
  salt := Vector.replicate 16 1
  signature := List.replicate 64 1
  witnesses := []

theorem validateStatic_bulk {count size : Nat} (hsome : count ≠ 0)
    (hcount : count ≤ maxOperations) (hsize : size ≤ maxOpPayload) :
    (bulkTransaction count size).validateStatic lenientCrypto = .ok () := by
  have hzero : ¬ IsZero32 (Vector.replicate 32 1) := by decide
  have hops : ¬ ∃ op ∈ (bulkTransaction count size).operations,
      op.kind = 0 ∨ maxOpPayload < op.payload.length := by
    rintro ⟨op, hop, hbad⟩
    rw [List.eq_of_mem_replicate hop] at hbad
    rcases hbad with hkind | hlong
    · have hcall : Op.contractCall ≠ 0 := by decide
      exact hcall hkind
    · rw [List.length_replicate] at hlong
      omega
  have hshape : ¬ ((bulkTransaction count size).salt =
      Vector.replicate 16 0 ∨ maxInputs < 0 ∨ maxOutputs < 0 ∨
      (bulkTransaction count size).operations.length = 0 ∨
      maxOperations < (bulkTransaction count size).operations.length) := by
    have hsalt : Vector.replicate 16 (1 : UInt8) ≠
        Vector.replicate 16 0 := by decide
    simp only [bulkTransaction, List.length_replicate]
    rintro (h | h | h | h | h)
    · exact hsalt h
    · exact absurd h (Nat.not_lt_zero _)
    · exact absurd h (Nat.not_lt_zero _)
    · exact hsome h
    · omega
  simp only [Transaction.validateStatic, verifySignature,
    Transaction.validateInputs, ok_iff, forM_eq_ok]
  refine ⟨fun h => h rfl, not_or.2 ⟨hzero, hzero⟩, fun h => h rfl, ?_,
    fun h => h rfl, hshape, ⟨?_, ?_⟩, ?_, hops, fun h => h rfl, ?_, ?_,
    ?_⟩
  · intro h
    cases h
  · rintro ⟨i, hi, _⟩
    exact absurd hi List.not_mem_nil
  · exact fun h => h List.nodup_nil
  · intro o ho
    exact absurd ho List.not_mem_nil
  · show ¬ (ofBe ((List.replicate 64 (1 : UInt8)).take 32) = 0 ∨
      ofBe ((List.replicate 64 (1 : UInt8)).drop 32) = 0 ∨
      p256Order ≤ ofBe ((List.replicate 64 (1 : UInt8)).take 32) ∨
      p256Order ≤ ofBe ((List.replicate 64 (1 : UInt8)).drop 32))
    decide
  · show ¬ p256Order / 2 < ofBe ((List.replicate 64 (1 : UInt8)).drop 32)
    decide
  · intro h
    cases h

theorem length_intentBytes_bulk (count size : Nat) :
    (bulkTransaction count size).intentBytes.length =
      215 + count * (size + 6) := by
  simp only [Transaction.intentBytes, bulkTransaction, List.length_append,
    Writer.length_u16, Writer.length_fixed, Writer.length_u32,
    Writer.length_u64, Writer.length_bytes, List.length_replicate,
    List.flatMap_nil, List.length_nil, List.length_flatMap,
    List.map_replicate, List.sum_replicate, Operation.encode,
    Vector.length_toList, smul_eq_mul]
  have hone : 2 + (4 + size) = size + 6 := by omega
  rw [hone]
  omega

theorem length_wireBytes_bulk (count size : Nat) :
    (bulkTransaction count size).wireBytes.length =
      291 + count * (size + 6) := by
  have hintent := length_intentBytes_bulk count size
  simp only [Transaction.wireBytes, List.length_append, Writer.length_bytes,
    Writer.length_u32, hintent]
  show 4 + (215 + count * (size + 6)) + (4 + 64) + 4 + 0 = _
  omega

theorem marshalBinary_bulk {count size : Nat} (hsome : count ≠ 0)
    (hcount : count ≤ maxOperations) (hsize : size ≤ maxOpPayload)
    (hwire : 291 + count * (size + 6) ≤ maxWireBytes) :
    (bulkTransaction count size).marshalBinary lenientCrypto =
      .ok (bulkTransaction count size).wireBytes := by
  refine marshalBinary_eq_ok.2
    ⟨rfl, validateStatic_bulk hsome hcount hsize, rfl, ?_⟩
  rw [length_wireBytes_bulk]
  exact hwire

/-- One small operation reads back, and both directions apply to it. -/
theorem transaction_codec_bulk :
    parseTransaction lenientCrypto (bulkTransaction 1 1).wireBytes =
        .ok (bulkTransaction 1 1) ∧
      (bulkTransaction 1 1).marshalBinary lenientCrypto =
        .ok (bulkTransaction 1 1).wireBytes := by
  obtain ⟨hread, hwrite, -, -⟩ := transaction_codec lenientCrypto
  have hmarshal := marshalBinary_bulk Nat.one_ne_zero
    (show 1 ≤ maxOperations by decide) (show 1 ≤ maxOpPayload by decide)
    (by decide)
  have hparse := (hread _ _ hmarshal (fun _ h =>
    absurd h List.not_mem_nil)).2 (by
      rw [length_intentBytes_bulk]
      decide)
  exact ⟨hparse, hwrite _ _ hparse⟩

/-- Seven payloads of the greatest size: the payload is written, with no
witness at all, and the parser refuses it. -/
theorem longIntent_unreadable :
    ∃ t : Transaction, ∃ b, t.marshalBinary lenientCrypto = .ok b ∧
      (∀ w ∈ t.witnesses, w.Valid) ∧
      parseTransaction lenientCrypto b ≠ .ok t := by
  refine ⟨bulkTransaction 7 maxOpPayload, _, marshalBinary_bulk (by decide)
    (by decide) (Nat.le_refl _) (by decide), fun _ h =>
    absurd h List.not_mem_nil, ?_⟩
  intro hparse
  obtain ⟨-, -, -, -, hintent, -⟩ := parseTransaction_eq_ok.1 hparse
  rw [length_intentBytes_bulk] at hintent
  exact absurd hintent (by decide)

end ZephyrChain
