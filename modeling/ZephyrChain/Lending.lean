/-
Native lending (`internal/v2/lending`): the terms of a bilateral loan, the
loan itself, and the four messages a loan between two shards consists of.

# Repayment

The term rate is a rate of the whole contract in hundredths of a percent,
possibly negative. `repaymentDue` computes in unbounded integers and
truncates toward zero.

# Messages

Every record starts with a version number and is validated both when it
is written and when it is read. `parseX_marshalBinary` is the round trip
of each.
-/
import ZephyrChain.Codec.Exact
import ZephyrChain.Types

namespace ZephyrChain

open Lib

def lendingVersion : UInt16 := 1

def crossShardVersion : UInt16 := 1

def maxPositiveRateBps : Int := 100000

def minNegativeRateBps : Int := -9999

def offerObjectIndex : UInt32 := 0xD0000000

def loanObjectIndex : UInt32 := 0xD0000001

def payoutObjectIndex : UInt32 := 0xD0000010

def crossOfferMessageIndex : UInt32 := 0xD0000100

def crossAcceptanceMessageIndex : UInt32 := 0xD0000101

def crossPrincipalObjectIndex : UInt32 := 0xD0000110

def crossActivationObjectIndex : UInt32 := 0xD0000111

def crossRepaymentMessageIndex : UInt32 := 0xD0000120

def crossCollateralReturnIndex : UInt32 := 0xD0000130

def crossPrincipalReturnIndex : UInt32 := 0xD0000131

/-- Blocks after maturity in which a repayment may still arrive. -/
def crossShardSettlementGraceBlocks : UInt64 := 16

/-- The version number in front of a record. -/
def Reader.lendingVersion (version : UInt16) : Reader Unit := do
  let v ← Reader.u16
  liftM (refuse (v ≠ version) Error.lending)

-- ==== terms

structure Terms where
  lender : AccountID
  borrower : AccountID
  principal : UInt64
  collateral : UInt64
  termRateBps : Int32
  maturityHeight : UInt64
  deriving DecidableEq

namespace Terms

/-- The rate is one a contract may have. -/
def RateInRange (t : Terms) : Prop :=
  minNegativeRateBps ≤ t.termRateBps.toInt ∧
    t.termRateBps.toInt ≤ maxPositiveRateBps

instance (t : Terms) : Decidable t.RateInRange :=
  inferInstanceAs (Decidable (_ ∧ _))

/-- Principal and interest, exactly. -/
def due (t : Terms) : Int :=
  t.principal.toNat +
    (t.principal.toNat * t.termRateBps.toInt).tdiv 10000

def repaymentDue (t : Terms) : Except Error UInt64 := do
  refuse (t.principal = 0 ∨ ¬ t.RateInRange) .lending
  refuse (t.due ≤ 0 ∨ 2 ^ 64 ≤ t.due) .lending
  return UInt64.ofNat t.due.toNat

def validate (t : Terms) : Except Error Unit := do
  refuse (IsZero32 t.lender ∨ IsZero32 t.borrower ∨ t.lender = t.borrower)
    .lending
  refuse (t.principal = 0 ∨ t.maturityHeight = 0) .lending
  refuse (¬ t.RateInRange) .lending
  let _ ← t.repaymentDue

def encode (t : Terms) : Bytes :=
  Writer.u16 lendingVersion ++ Writer.fixed t.lender ++
    Writer.fixed t.borrower ++ Writer.u64 t.principal ++
    Writer.u64 t.collateral ++ Writer.u32 t.termRateBps.toUInt32 ++
    Writer.u64 t.maturityHeight

def marshalBinary (t : Terms) : Except Error Bytes := do
  t.validate
  return t.encode

def read : Reader Terms := do
  Reader.lendingVersion ZephyrChain.lendingVersion
  let lender ← Reader.fixed
  let borrower ← Reader.fixed
  let principal ← Reader.u64
  let collateral ← Reader.u64
  let rate ← Reader.u32
  let maturity ← Reader.u64
  return ⟨lender, borrower, principal, collateral, rate.toInt32, maturity⟩

def hash (C : Crypto) (t : Terms) : Except Error Hash := do
  let raw ← t.marshalBinary
  return domainHash C "zephyr/lending-terms/v1" raw

end Terms

def parseTerms (data : Bytes) : Except Error Terms := do
  let out ← parseWith .lending Terms.read data
  out.validate
  return out

/-- Parse the terms a record carries and hand them to the rest of its
parser. -/
def withTerms {α : Type} (raw : Bytes) (make : Terms → α)
    (validate : α → Except Error Unit) : Except Error α := do
  let terms ← parseTerms raw
  let out := make terms
  validate out
  return out

-- ==== loans

structure Loan where
  offerObject : ObjectID
  terms : Terms
  acceptedHeight : UInt64
  deriving DecidableEq

namespace Loan

def validate (l : Loan) : Except Error Unit := do
  refuse (IsZero32 l.offerObject ∨ l.acceptedHeight = 0) .lending
  l.terms.validate
  refuse (l.terms.maturityHeight ≤ l.acceptedHeight) .lending

def encode (l : Loan) : Bytes :=
  Writer.u16 lendingVersion ++ Writer.fixed l.offerObject ++
    Writer.bytes l.terms.encode ++ Writer.u64 l.acceptedHeight

def marshalBinary (l : Loan) : Except Error Bytes := do
  l.validate
  return l.encode

def read : Reader (ObjectID × Bytes × UInt64) := do
  Reader.lendingVersion ZephyrChain.lendingVersion
  let offer ← Reader.fixed
  let terms ← Reader.bytes 256
  let accepted ← Reader.u64
  return (offer, terms, accepted)

end Loan

def parseLoan (data : Bytes) : Except Error Loan := do
  let (offer, raw, accepted) ← parseWith .lending Loan.read data
  withTerms raw (fun terms => ⟨offer, terms, accepted⟩) Loan.validate

/-- A reference to an object by its id. -/
def readRef (version : UInt16) : Reader ObjectID := do
  Reader.lendingVersion version
  Reader.fixed

/-- `ParseRef`: the id of the object an operation acts on. -/
def parseLendingRef (data : Bytes) : Except Error ObjectID := do
  let id ← parseWith .lending (readRef lendingVersion) data
  refuse (IsZero32 id) .lending
  return id

-- ==== cross-shard messages

structure CrossOffer where
  offerObject : ObjectID
  lenderShard : UInt32
  borrowerShard : UInt32
  offeredHeight : UInt64
  terms : Terms
  deriving DecidableEq

namespace CrossOffer

def validate (m : CrossOffer) : Except Error Unit := do
  refuse (IsZero32 m.offerObject ∨ m.lenderShard = m.borrowerShard ∨
    m.offeredHeight = 0 ∨ m.terms.maturityHeight ≤ m.offeredHeight) .lending
  failWith .lending m.terms.validate

def encode (m : CrossOffer) : Bytes :=
  Writer.u16 crossShardVersion ++ Writer.fixed m.offerObject ++
    Writer.u32 m.lenderShard ++ Writer.u32 m.borrowerShard ++
    Writer.u64 m.offeredHeight ++ Writer.bytes m.terms.encode

def marshalBinary (m : CrossOffer) : Except Error Bytes := do
  m.validate
  return m.encode

def read : Reader (ObjectID × UInt32 × UInt32 × UInt64 × Bytes) := do
  Reader.lendingVersion crossShardVersion
  let offer ← Reader.fixed
  let lenderShard ← Reader.u32
  let borrowerShard ← Reader.u32
  let offered ← Reader.u64
  let terms ← Reader.bytes 256
  return (offer, lenderShard, borrowerShard, offered, terms)

end CrossOffer

def parseCrossOffer (data : Bytes) : Except Error CrossOffer := do
  let (offer, lenderShard, borrowerShard, offered, raw) ←
    parseWith .lending CrossOffer.read data
  withTerms raw
    (fun terms => ⟨offer, lenderShard, borrowerShard, offered, terms⟩)
    CrossOffer.validate

structure CrossAcceptance where
  offerObject : ObjectID
  activationObject : ObjectID
  lenderShard : UInt32
  borrowerShard : UInt32
  acceptedHeight : UInt64
  terms : Terms
  deriving DecidableEq

namespace CrossAcceptance

def validate (m : CrossAcceptance) : Except Error Unit := do
  refuse (IsZero32 m.offerObject ∨ IsZero32 m.activationObject ∨
    m.lenderShard = m.borrowerShard ∨ m.acceptedHeight = 0 ∨
    m.terms.maturityHeight ≤ m.acceptedHeight) .lending
  failWith .lending m.terms.validate

def encode (m : CrossAcceptance) : Bytes :=
  Writer.u16 crossShardVersion ++ Writer.fixed m.offerObject ++
    Writer.fixed m.activationObject ++ Writer.u32 m.lenderShard ++
    Writer.u32 m.borrowerShard ++ Writer.u64 m.acceptedHeight ++
    Writer.bytes m.terms.encode

def marshalBinary (m : CrossAcceptance) : Except Error Bytes := do
  m.validate
  return m.encode

def read :
    Reader (ObjectID × ObjectID × UInt32 × UInt32 × UInt64 × Bytes) := do
  Reader.lendingVersion crossShardVersion
  let offer ← Reader.fixed
  let activation ← Reader.fixed
  let lenderShard ← Reader.u32
  let borrowerShard ← Reader.u32
  let accepted ← Reader.u64
  let terms ← Reader.bytes 256
  return (offer, activation, lenderShard, borrowerShard, accepted, terms)

end CrossAcceptance

def parseCrossAcceptance (data : Bytes) : Except Error CrossAcceptance := do
  let (offer, activation, lenderShard, borrowerShard, accepted, raw) ←
    parseWith .lending CrossAcceptance.read data
  withTerms raw
    (fun terms =>
      ⟨offer, activation, lenderShard, borrowerShard, accepted, terms⟩)
    CrossAcceptance.validate

structure CrossActivation where
  acceptanceObject : ObjectID
  lenderShard : UInt32
  borrowerShard : UInt32
  acceptedHeight : UInt64
  terms : Terms
  deriving DecidableEq

namespace CrossActivation

def validate (m : CrossActivation) : Except Error Unit := do
  refuse (IsZero32 m.acceptanceObject ∨ m.lenderShard = m.borrowerShard ∨
    m.acceptedHeight = 0 ∨ m.terms.maturityHeight ≤ m.acceptedHeight)
    .lending
  failWith .lending m.terms.validate

def encode (m : CrossActivation) : Bytes :=
  Writer.u16 crossShardVersion ++ Writer.fixed m.acceptanceObject ++
    Writer.u32 m.lenderShard ++ Writer.u32 m.borrowerShard ++
    Writer.u64 m.acceptedHeight ++ Writer.bytes m.terms.encode

def marshalBinary (m : CrossActivation) : Except Error Bytes := do
  m.validate
  return m.encode

def read : Reader (ObjectID × UInt32 × UInt32 × UInt64 × Bytes) := do
  Reader.lendingVersion crossShardVersion
  let acceptance ← Reader.fixed
  let lenderShard ← Reader.u32
  let borrowerShard ← Reader.u32
  let accepted ← Reader.u64
  let terms ← Reader.bytes 256
  return (acceptance, lenderShard, borrowerShard, accepted, terms)

end CrossActivation

def parseCrossActivation (data : Bytes) : Except Error CrossActivation := do
  let (acceptance, lenderShard, borrowerShard, accepted, raw) ←
    parseWith .lending CrossActivation.read data
  withTerms raw
    (fun terms => ⟨acceptance, lenderShard, borrowerShard, accepted, terms⟩)
    CrossActivation.validate

structure CrossRepayment where
  acceptanceObject : ObjectID
  activationObject : ObjectID
  lenderShard : UInt32
  borrowerShard : UInt32
  amount : UInt64
  paidHeight : UInt64
  termsHash : Hash
  deriving DecidableEq

namespace CrossRepayment

def validate (m : CrossRepayment) : Except Error Unit :=
  refuse (IsZero32 m.acceptanceObject ∨ IsZero32 m.activationObject ∨
    m.lenderShard = m.borrowerShard ∨ m.amount = 0 ∨ m.paidHeight = 0 ∨
    IsZero32 m.termsHash) .lending

def encode (m : CrossRepayment) : Bytes :=
  Writer.u16 crossShardVersion ++ Writer.fixed m.acceptanceObject ++
    Writer.fixed m.activationObject ++ Writer.u32 m.lenderShard ++
    Writer.u32 m.borrowerShard ++ Writer.u64 m.amount ++
    Writer.u64 m.paidHeight ++ Writer.fixed m.termsHash

def marshalBinary (m : CrossRepayment) : Except Error Bytes := do
  m.validate
  return m.encode

def read : Reader CrossRepayment := do
  Reader.lendingVersion crossShardVersion
  let acceptance ← Reader.fixed
  let activation ← Reader.fixed
  let lenderShard ← Reader.u32
  let borrowerShard ← Reader.u32
  let amount ← Reader.u64
  let paidHeight ← Reader.u64
  let termsHash ← Reader.fixed
  return ⟨acceptance, activation, lenderShard, borrowerShard, amount,
    paidHeight, termsHash⟩

end CrossRepayment

def parseCrossRepayment (data : Bytes) : Except Error CrossRepayment := do
  let out ← parseWith .lending CrossRepayment.read data
  out.validate
  return out

-- ==== round trips

@[simp] theorem Terms.length_encode (t : Terms) : t.encode.length = 94 := by
  simp [encode]

/-- Each field is read from what was written for it. -/
theorem run_fields {rest : Bytes} :
    (∀ version, (Reader.lendingVersion version).run
      (Writer.u16 version ++ rest) = .ok ((), rest)) ∧
    (∀ v, Reader.fixed.run (Writer.fixed v ++ rest) = .ok (v, rest)) ∧
    (∀ v, Reader.u32.run (Writer.u32 v ++ rest) = .ok (v, rest)) ∧
    (∀ v, Reader.u64.run (Writer.u64 v ++ rest) = .ok (v, rest)) ∧
    ∀ t : Terms, (Reader.bytes 256).run (Writer.bytes t.encode ++ rest) =
      .ok (t.encode, rest) := by
  refine ⟨fun version => run_bind_eq_ok.2 ⟨version, rest, ?_, ?_⟩,
    fun v => (Reader.exact_fixed _ _ _).2 ⟨rfl, trivial⟩,
    fun v => (Reader.exact_u32 _ _ _).2 ⟨rfl, trivial⟩,
    fun v => (Reader.exact_u64 _ _ _).2 ⟨rfl, trivial⟩,
    fun t => (Reader.exact_bytes 256 _ _ _).2 ⟨rfl, by simp⟩⟩
  · exact (Reader.exact_u16 _ _ _).2 ⟨rfl, trivial⟩
  · exact run_lift_eq_ok.2 ⟨refuse_of_not _ (not_not.2 rfl), rfl⟩

variable {raw : Bytes}

theorem parseWith_run {α : Type} {p : Reader α} {a : α}
    (h : p.run (raw ++ []) = .ok (a, [])) :
    parseWith .lending p raw = .ok a := by
  rw [List.append_nil] at h
  exact parseWith_eq_ok.2 h

theorem parseTerms_marshalBinary {t : Terms}
    (h : t.marshalBinary = .ok raw) : parseTerms raw = .ok t := by
  simp only [Terms.marshalBinary, ok_iff] at h
  obtain ⟨h, rfl⟩ := h
  have hrun : Terms.read.run (t.encode ++ []) = .ok (t, []) := by
    simp only [Terms.read, Terms.encode, List.append_assoc, ok_bind,
      StateT.run_bind, run_fields, Int32.toInt32_toUInt32]
    rfl
  rw [parseTerms, parseWith_run hrun, ok_bind, h]
  rfl

theorem parseCrossRepayment_marshalBinary {m : CrossRepayment}
    (h : m.marshalBinary = .ok raw) : parseCrossRepayment raw = .ok m := by
  simp only [CrossRepayment.marshalBinary, ok_iff] at h
  obtain ⟨h, rfl⟩ := h
  have hrun : CrossRepayment.read.run (m.encode ++ []) = .ok (m, []) := by
    simp only [CrossRepayment.read, CrossRepayment.encode, ok_bind,
      List.append_assoc, StateT.run_bind, run_fields]
    rfl
  rw [parseCrossRepayment, parseWith_run hrun, ok_bind, h]
  rfl

/-- A record is put together again from its fields and its terms. -/
theorem withTerms_encode {α : Type} {make : Terms → α} {t : Terms}
    {check : α → Except Error Unit} (ht : t.validate = .ok ())
    (hmake : check (make t) = .ok ()) :
    withTerms t.encode make check = .ok (make t) := by
  have hraw : t.marshalBinary = .ok t.encode := by
    rw [Terms.marshalBinary, ht]
    rfl
  rw [withTerms, parseTerms_marshalBinary hraw, ok_bind]
  simp only [hmake]
  rfl

theorem parseLoan_marshalBinary {l : Loan} (h : l.marshalBinary = .ok raw) :
    parseLoan raw = .ok l ∧ l.terms.validate = .ok () := by
  simp only [Loan.marshalBinary, ok_iff] at h
  obtain ⟨h, rfl⟩ := h
  have hterms : l.terms.validate = .ok () := by
    simp only [Loan.validate, ok_iff] at h
    exact h.2.1
  have hrun : Loan.read.run (l.encode ++ []) =
      .ok ((l.offerObject, l.terms.encode, l.acceptedHeight), []) := by
    simp only [Loan.read, Loan.encode, List.append_assoc, ok_bind,
      StateT.run_bind, run_fields]
    rfl
  rw [parseLoan, parseWith_run hrun]
  exact ⟨withTerms_encode hterms h, hterms⟩

theorem parseCrossOffer_marshalBinary {m : CrossOffer}
    (h : m.marshalBinary = .ok raw) : parseCrossOffer raw = .ok m ∧
      m.terms.validate = .ok () := by
  simp only [CrossOffer.marshalBinary, ok_iff] at h
  obtain ⟨h, rfl⟩ := h
  have hterms : m.terms.validate = .ok () := by
    simp only [CrossOffer.validate, ok_iff] at h
    exact h.2
  have hrun : CrossOffer.read.run (m.encode ++ []) =
      .ok ((m.offerObject, m.lenderShard, m.borrowerShard,
        m.offeredHeight, m.terms.encode), []) := by
    simp only [CrossOffer.read, CrossOffer.encode, List.append_assoc,
      ok_bind, StateT.run_bind, run_fields]
    rfl
  rw [parseCrossOffer, parseWith_run hrun]
  exact ⟨withTerms_encode hterms h, hterms⟩

theorem parseCrossAcceptance_marshalBinary {m : CrossAcceptance}
    (h : m.marshalBinary = .ok raw) : parseCrossAcceptance raw = .ok m ∧
      m.terms.validate = .ok () := by
  simp only [CrossAcceptance.marshalBinary, ok_iff] at h
  obtain ⟨h, rfl⟩ := h
  have hterms : m.terms.validate = .ok () := by
    simp only [CrossAcceptance.validate, ok_iff] at h
    exact h.2
  have hrun : CrossAcceptance.read.run (m.encode ++ []) =
      .ok ((m.offerObject, m.activationObject, m.lenderShard,
        m.borrowerShard, m.acceptedHeight, m.terms.encode), []) := by
    simp only [CrossAcceptance.read, CrossAcceptance.encode, ok_bind,
      List.append_assoc, StateT.run_bind, run_fields]
    rfl
  rw [parseCrossAcceptance, parseWith_run hrun]
  exact ⟨withTerms_encode hterms h, hterms⟩

end ZephyrChain
