/-
Protocol objects (`internal/v2/object`): the typed, versioned, owned
records the world state consists of, the output specifications that
become objects, and the coin payload.

A kind is a 16-bit number on the wire, and the parser accepts numbers
the protocol has not assigned. `Kind` keeps both: one constructor per
assigned kind and one for the numbers behind them, with the bound in the
constructor, so that the two directions of the numbering are inverse.
-/
import ZephyrChain.Codec.Exact
import ZephyrChain.Types

namespace ZephyrChain

open Lib

-- ==== kinds

inductive Kind where
  | unknown
  | coin
  | tokenDefinition
  | contract
  | contractState
  | computeOffer
  | computeJob
  | computeAssignment
  | computeResult
  | loanOffer
  | loan
  | system
  | deviceCredential
  | crossLoanOffer
  | crossLoanAcceptance
  | crossLoanActivation
  | crossLoanRepayment
  /-- A number no kind is assigned to. -/
  | unassigned (number : UInt16) (h : 17 ≤ number.toNat)
  deriving DecidableEq

namespace Kind

def toUInt16 : Kind → UInt16
  | unknown => 0
  | coin => 1
  | tokenDefinition => 2
  | contract => 3
  | contractState => 4
  | computeOffer => 5
  | computeJob => 6
  | computeAssignment => 7
  | computeResult => 8
  | loanOffer => 9
  | loan => 10
  | system => 11
  | deviceCredential => 12
  | crossLoanOffer => 13
  | crossLoanAcceptance => 14
  | crossLoanActivation => 15
  | crossLoanRepayment => 16
  | unassigned n _ => n

/-- The assigned kinds in the order of their numbers. -/
def assigned : List Kind :=
  [unknown, coin, tokenDefinition, contract, contractState, computeOffer,
    computeJob, computeAssignment, computeResult, loanOffer, loan, system,
    deviceCredential, crossLoanOffer, crossLoanAcceptance,
    crossLoanActivation, crossLoanRepayment]

def ofUInt16 (n : UInt16) : Kind :=
  if h : n.toNat < assigned.length then assigned.get ⟨n.toNat, h⟩
  else unassigned n (by simpa [assigned] using h)

@[simp] theorem ofUInt16_toUInt16 (k : Kind) : ofUInt16 k.toUInt16 = k := by
  cases k with
  | unassigned n h =>
    have hn : ¬ n.toNat < assigned.length := by
      simpa [assigned] using h
    exact dif_neg hn
  | _ => decide

theorem toUInt16_inj {k k' : Kind} (h : k.toUInt16 = k'.toUInt16) :
    k = k' := by
  rw [← ofUInt16_toUInt16 k, h, ofUInt16_toUInt16]

end Kind

-- ==== objects

/-- Largest object payload. -/
def maxObjectDataBytes : UInt32 := 1048576

structure Object where
  id : ObjectID
  version : UInt64
  owner : AccountID
  kind : Kind
  data : Bytes
  deriving DecidableEq

structure OutputSpec where
  owner : AccountID
  kind : Kind
  data : Bytes
  deriving DecidableEq

/-- Every kind but a system object has a non-zero owner. -/
def validateOwnerForKind (owner : AccountID) (kind : Kind) :
    Except Error Unit :=
  match kind with
  | .system => .ok ()
  | _ => refuse (IsZero32 owner) .invalidObject

theorem validateOwnerForKind_eq_ok {owner : AccountID} {kind : Kind} :
    validateOwnerForKind owner kind = .ok () ↔
      kind = .system ∨ owner ≠ Bytes32.zero := by
  cases kind <;> simp [validateOwnerForKind]

namespace Object

def validate (o : Object) : Except Error Unit := do
  refuse (IsZero32 o.id ∨ o.version = 0 ∨ o.kind = .unknown ∨
    maxObjectDataBytes.toNat < o.data.length) .invalidObject
  validateOwnerForKind o.owner o.kind

/-- An object the source's `Validate` accepts. -/
def Valid (o : Object) : Prop := o.validate = .ok ()

instance (o : Object) : Decidable o.Valid :=
  match h : o.validate with
  | .ok _ => .isTrue h
  | .error _ => .isFalse (by simp [Valid, h])

def canonicalBytes (o : Object) : Bytes :=
  Writer.fixed o.id ++ Writer.u64 o.version ++ Writer.fixed o.owner ++
    Writer.u16 o.kind.toUInt16 ++ Writer.bytes o.data

/-- The fields of an object in wire order. -/
def read : Reader Object := do
  let id ← Reader.fixed
  let version ← Reader.u64
  let owner ← Reader.fixed
  let kind ← Reader.u16
  let payload ← Reader.bytes maxObjectDataBytes
  return ⟨id, version, owner, Kind.ofUInt16 kind, payload⟩

end Object

def parseObject (data : Bytes) : Except Error Object := do
  let out ← parseWith .invalidObject Object.read data
  out.validate
  return out

def Object.hash (C : Crypto) (o : Object) : Hash :=
  domainHash C "zephyr/object/v2" o.canonicalBytes

namespace OutputSpec

def validate (o : OutputSpec) : Except Error Unit := do
  refuse (o.kind = .unknown ∨ maxObjectDataBytes.toNat < o.data.length)
    .invalidObject
  validateOwnerForKind o.owner o.kind

def canonicalBytes (o : OutputSpec) : Bytes :=
  Writer.fixed o.owner ++ Writer.u16 o.kind.toUInt16 ++ Writer.bytes o.data

def read : Reader OutputSpec := do
  let owner ← Reader.fixed
  let kind ← Reader.u16
  let payload ← Reader.bytes maxObjectDataBytes
  return ⟨owner, Kind.ofUInt16 kind, payload⟩

end OutputSpec

theorem OutputSpec.canonicalBytes_inj {o o' : OutputSpec}
    (h : o.canonicalBytes = o'.canonicalBytes) : o = o' := by
  cases o
  cases o'
  simp only [canonicalBytes, List.append_assoc] at h
  obtain ⟨howner, h⟩ := List.append_inj h (by simp)
  obtain ⟨hkind, hdata⟩ := List.append_inj h (by simp)
  rw [Vector.toList_inj.1 howner, Kind.toUInt16_inj (Writer.u16_inj hkind),
    Writer.bytes_inj hdata]

def parseOutputSpec (data : Bytes) : Except Error OutputSpec := do
  let out ← parseWith .invalidObject OutputSpec.read data
  out.validate
  return out

-- ==== coins

structure Coin where
  token : TokenID
  amount : UInt64
  createdHeight : UInt64
  deriving DecidableEq

namespace Coin

def marshalBinary (c : Coin) : Bytes :=
  Writer.fixed c.token ++ Writer.u64 c.amount ++ Writer.u64 c.createdHeight

def read : Reader Coin := do
  let token ← Reader.fixed
  let amount ← Reader.u64
  liftM (refuse (amount = 0) Error.invalidCoin)
  let createdHeight ← Reader.u64
  return ⟨token, amount, createdHeight⟩

end Coin

def parseCoin (data : Bytes) : Except Error Coin := do
  let coin ← parseWith .invalidCoin Coin.read data
  refuse (IsZero32 coin.token) .invalidCoin
  return coin

def newCoinOutputAtHeight (owner : AccountID) (token : TokenID)
    (amount createdHeight : UInt64) : Except Error OutputSpec := do
  refuse (IsZero32 owner ∨ IsZero32 token ∨ amount = 0) .invalidCoin
  let out : OutputSpec :=
    ⟨owner, .coin, (Coin.mk token amount createdHeight).marshalBinary⟩
  out.validate
  return out

def newCoinOutput (owner : AccountID) (token : TokenID) (amount : UInt64) :
    Except Error OutputSpec :=
  newCoinOutputAtHeight owner token amount 0

-- ==== round trips

theorem Kind.toUInt16_ofUInt16 (n : UInt16) :
    (Kind.ofUInt16 n).toUInt16 = n := by
  unfold Kind.ofUInt16
  split
  case isTrue h =>
    have hn : n = UInt16.ofNat n.toNat := UInt16.ofNat_toNat.symm
    have hlt : n.toNat < 17 := h
    generalize n.toNat = k at h hn hlt
    subst hn
    interval_cases k <;> rfl
  case isFalse => rfl

theorem Kind.toUInt16_eq_iff {k : Kind} {n : UInt16} :
    k.toUInt16 = n ↔ k = ofUInt16 n :=
  code_eq_iff ofUInt16_toUInt16 toUInt16_ofUInt16

theorem Object.valid_iff (o : Object) :
    o.Valid ↔ o.id ≠ Bytes32.zero ∧ o.version ≠ 0 ∧ o.kind ≠ .unknown ∧
      o.data.length ≤ maxObjectDataBytes.toNat ∧
      (o.kind = .system ∨ o.owner ≠ Bytes32.zero) := by
  simp only [Valid, validate, ok_iff, not_or, not_lt,
    validateOwnerForKind_eq_ok, exists_const, and_assoc, ne_eq]

theorem exact_object : Exact Object.read Object.canonicalBytes
    fun o => o.data.length ≤ maxObjectDataBytes.toNat := by
  refine Exact.of_fields (
    .field Object.id Reader.exact_fixed fun _ =>
    .field Object.version Reader.exact_u64 fun _ =>
    .field Object.owner Reader.exact_fixed fun _ =>
    .field (·.kind.toUInt16) Reader.exact_u16 fun _ =>
    .field Object.data (Reader.exact_bytes _) fun _ =>
    .pure fun o => ?_) ?_ ?_
  · cases o
    simp [Kind.toUInt16_eq_iff, and_assoc]
  · simp [Object.canonicalBytes]
  · simp

theorem length_canonicalBytes (o : Object) :
    o.canonicalBytes.length = 78 + o.data.length := by
  simp [Object.canonicalBytes]
  omega

/-- The readers of stored objects leave room for a valid one. -/
theorem length_canonicalBytes_object {o : Object} (h : o.Valid) :
    o.canonicalBytes.length ≤ (maxObjectDataBytes + 128).toNat := by
  have hdata := ((Object.valid_iff o).1 h).2.2.2.1
  have hmax : (maxObjectDataBytes + 128).toNat =
      maxObjectDataBytes.toNat + 128 := by decide
  rw [length_canonicalBytes, hmax]
  omega

theorem parseObject_eq_ok {data : Bytes} {o : Object} :
    parseObject data = .ok o ↔ data = o.canonicalBytes ∧ o.Valid :=
  parse_checked_of exact_object
    fun o h => ((Object.valid_iff o).1 h).2.2.2.1

theorem parseCoin_iff {data : Bytes} {c : Coin} :
    parseCoin data = .ok c ↔
      data = c.marshalBinary ∧ c.amount ≠ 0 ∧ c.token ≠ Bytes32.zero := by
  have hread : Exact Coin.read Coin.marshalBinary
      fun c => c.amount ≠ 0 := by
    refine Exact.of_fields (
      .field Coin.token Reader.exact_fixed fun _ =>
      .field Coin.amount Reader.exact_u64 fun _ =>
      .refuse (Coin.amount · ≠ 0) (fun _ h => by rw [h.2]) <|
      .field Coin.createdHeight Reader.exact_u64 fun _ =>
      .pure fun c => ?_) ?_ ?_
    · cases c
      simp [and_assoc]
    · simp [Coin.marshalBinary]
    · simp
  exact (parse_checked hread).trans (by rw [refuse_eq_ok])

/-- A coin output the executor makes parses back to its amount. -/
theorem newCoinOutputAtHeight_eq_ok {owner : AccountID} {token : TokenID}
    {amount height : UInt64} {spec : OutputSpec}
    (h : newCoinOutputAtHeight owner token amount height = .ok spec) :
    spec.owner = owner ∧ spec.kind = .coin ∧
      parseCoin spec.data = .ok ⟨token, amount, height⟩ := by
  simp only [newCoinOutputAtHeight, ok_iff, not_or] at h
  obtain ⟨⟨_, htoken, hamount⟩, _, rfl⟩ := h
  exact ⟨rfl, rfl, parseCoin_iff.2 ⟨rfl, hamount, htoken⟩⟩

end ZephyrChain
