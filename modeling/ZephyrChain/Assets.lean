/-
Protocol-native tokens (`internal/v2/assets`): the definition record of a
token, the payloads that create, mint and burn it, and the supply rules.

Names and symbols are trimmed when they are written and limited when they
are read. A definition that was written therefore reads back with the
trimmed texts and every number unchanged (`parseDefinition_encode`).
-/
import ZephyrChain.Codec.Exact
import ZephyrChain.Types

namespace ZephyrChain

open Lib

-- ==== supply policies

inductive SupplyPolicy where
  | capped
  | fixed
  | mintable
  /-- A number no policy is assigned to. -/
  | unassigned (number : UInt8) (h : 3 ≤ number.toNat)
  deriving DecidableEq

namespace SupplyPolicy

def toUInt8 : SupplyPolicy → UInt8
  | capped => 0
  | fixed => 1
  | mintable => 2
  | unassigned n _ => n

def assigned : List SupplyPolicy := [capped, fixed, mintable]

def ofUInt8 (n : UInt8) : SupplyPolicy :=
  if h : n.toNat < assigned.length then assigned.get ⟨n.toNat, h⟩
  else unassigned n (by simpa [assigned] using h)

@[simp] theorem ofUInt8_toUInt8 (p : SupplyPolicy) :
    ofUInt8 p.toUInt8 = p := by
  cases p with
  | unassigned n h =>
    have hn : ¬ n.toNat < assigned.length := by
      simpa [assigned] using h
    exact dif_neg hn
  | _ => decide

end SupplyPolicy

-- ==== definitions

structure Definition where
  tokenID : TokenID
  name : Bytes
  symbol : Bytes
  decimals : UInt8
  supplyPolicy : SupplyPolicy
  maxSupply : UInt64
  currentSupply : UInt64
  mintAuthority : AccountID
  burnable : Bool
  transferable : Bool
  deriving DecidableEq

namespace Definition

def validate (d : Definition) : Except Error Unit := do
  refuse (IsZero32 d.tokenID ∨ trimSpace d.name = [] ∨
    trimSpace d.symbol = [] ∨ 18 < d.decimals ∨ IsZero32 d.mintAuthority)
    .invalidTokenDefinition
  match d.supplyPolicy with
  | .capped | .fixed =>
    refuse (d.maxSupply = 0 ∨ d.maxSupply < d.currentSupply)
      .invalidTokenDefinition
  | .mintable => refuse (d.maxSupply ≠ 0) .invalidTokenDefinition
  | .unassigned _ _ => .error .invalidTokenDefinition

/-- The bytes of `MarshalBinary` once the definition is valid. -/
def encode (d : Definition) : Bytes :=
  Writer.fixed d.tokenID ++ Writer.bytes (trimSpace d.name) ++
    Writer.bytes (trimSpace d.symbol) ++ Writer.u8 d.decimals ++
    Writer.u8 d.supplyPolicy.toUInt8 ++ Writer.u64 d.maxSupply ++
    Writer.u64 d.currentSupply ++ Writer.fixed d.mintAuthority ++
    Writer.bool d.burnable ++ Writer.bool d.transferable

def marshalBinary (d : Definition) : Except Error Bytes := do
  d.validate
  return d.encode

def read : Reader Definition := do
  let tokenID ← Reader.fixed
  let name ← Reader.bytes 64
  let symbol ← Reader.bytes 16
  let decimals ← Reader.u8
  let policy ← Reader.u8
  let maxSupply ← Reader.u64
  let currentSupply ← Reader.u64
  let mintAuthority ← Reader.fixed
  let burnable ← Reader.bool
  let transferable ← Reader.bool
  return ⟨tokenID, name, symbol, decimals, SupplyPolicy.ofUInt8 policy,
    maxSupply, currentSupply, mintAuthority, burnable, transferable⟩

/-- The definition after minting `amount`. -/
def mint (d : Definition) (amount : UInt64) : Except Error Definition := do
  failWith .invalidTokenDefinition d.validate
  refuse (amount = 0 ∨ d.supplyPolicy = .fixed ∨
    Overflows d.currentSupply amount) .invalidTokenDefinition
  let next := { d with currentSupply := d.currentSupply + amount }
  refuse (d.supplyPolicy = .capped ∧ d.maxSupply < next.currentSupply)
    .invalidTokenDefinition
  next.validate
  return next

/-- The definition after burning `amount`. -/
def burn (d : Definition) (amount : UInt64) : Except Error Definition := do
  failWith .invalidTokenDefinition d.validate
  refuse (d.burnable = false ∨ amount = 0 ∨ d.currentSupply < amount)
    .invalidTokenDefinition
  let next := { d with currentSupply := d.currentSupply - amount }
  next.validate
  return next

end Definition

def parseDefinition (data : Bytes) : Except Error Definition := do
  let out ← parseWith .invalidTokenDefinition Definition.read data
  out.validate
  return out

-- ==== payloads

structure CreateToken where
  name : Bytes
  symbol : Bytes
  decimals : UInt8
  supplyPolicy : SupplyPolicy
  maxSupply : UInt64
  initialSupply : UInt64
  mintAuthority : AccountID
  burnable : Bool
  transferable : Bool
  deriving DecidableEq

namespace CreateToken

def validate (c : CreateToken) : Except Error Unit := do
  let name := trimSpace c.name
  let symbol := trimSpace c.symbol
  refuse (name = [] ∨ 64 < name.length ∨ symbol = [] ∨ 16 < symbol.length ∨
    18 < c.decimals ∨ c.initialSupply = 0 ∨ IsZero32 c.mintAuthority)
    .invalidTokenDefinition
  match c.supplyPolicy with
  | .capped =>
    refuse (c.maxSupply = 0 ∨ c.maxSupply < c.initialSupply)
      .invalidTokenDefinition
  | .fixed =>
    refuse (c.maxSupply = 0 ∨ c.initialSupply ≠ c.maxSupply)
      .invalidTokenDefinition
  | .mintable => refuse (c.maxSupply ≠ 0) .invalidTokenDefinition
  | .unassigned _ _ => .error .invalidTokenDefinition

def encode (c : CreateToken) : Bytes :=
  Writer.bytes (trimSpace c.name) ++ Writer.bytes (trimSpace c.symbol) ++
    Writer.u8 c.decimals ++ Writer.u8 c.supplyPolicy.toUInt8 ++
    Writer.u64 c.maxSupply ++ Writer.u64 c.initialSupply ++
    Writer.fixed c.mintAuthority ++ Writer.bool c.burnable ++
    Writer.bool c.transferable

def marshalBinary (c : CreateToken) : Except Error Bytes := do
  c.validate
  return c.encode

def read : Reader CreateToken := do
  let name ← Reader.bytes 64
  let symbol ← Reader.bytes 16
  let decimals ← Reader.u8
  let policy ← Reader.u8
  let maxSupply ← Reader.u64
  let initialSupply ← Reader.u64
  let mintAuthority ← Reader.fixed
  let burnable ← Reader.bool
  let transferable ← Reader.bool
  return ⟨name, symbol, decimals, SupplyPolicy.ofUInt8 policy, maxSupply,
    initialSupply, mintAuthority, burnable, transferable⟩

end CreateToken

def parseCreateToken (data : Bytes) : Except Error CreateToken := do
  let out ← parseWith .invalidTokenDefinition CreateToken.read data
  out.validate
  return out

structure MintToken where
  definitionObject : ObjectID
  recipient : AccountID
  amount : UInt64
  deriving DecidableEq

def MintToken.marshalBinary (m : MintToken) : Except Error Bytes := do
  refuse (IsZero32 m.definitionObject ∨ IsZero32 m.recipient ∨ m.amount = 0)
    .invalidTokenDefinition
  return Writer.fixed m.definitionObject ++ Writer.fixed m.recipient ++
    Writer.u64 m.amount

def parseMintToken (data : Bytes) : Except Error MintToken := do
  refuse (data.length ≠ 72) .invalidTokenDefinition
  let amount ← parseWith .invalidTokenDefinition Reader.u64 (data.drop 64)
  let out : MintToken :=
    ⟨Bytes32.copy32 (data.take 32), Bytes32.copy32 ((data.drop 32).take 32),
      amount⟩
  let _ ← out.marshalBinary
  return out

structure BurnToken where
  definitionObject : ObjectID
  amount : UInt64
  deriving DecidableEq

def BurnToken.marshalBinary (b : BurnToken) : Except Error Bytes := do
  refuse (IsZero32 b.definitionObject ∨ b.amount = 0) .invalidTokenDefinition
  return Writer.fixed b.definitionObject ++ Writer.u64 b.amount

def parseBurnToken (data : Bytes) : Except Error BurnToken := do
  refuse (data.length ≠ 40) .invalidTokenDefinition
  let amount ← parseWith .invalidTokenDefinition Reader.u64 (data.drop 32)
  let out : BurnToken := ⟨Bytes32.copy32 (data.take 32), amount⟩
  let _ ← out.marshalBinary
  return out

-- ==== round trips

theorem SupplyPolicy.toUInt8_ofUInt8 (n : UInt8) :
    (SupplyPolicy.ofUInt8 n).toUInt8 = n := by
  unfold SupplyPolicy.ofUInt8
  split
  case isTrue h =>
    have hn : n = UInt8.ofNat n.toNat := UInt8.ofNat_toNat.symm
    have hlt : n.toNat < 3 := h
    generalize n.toNat = k at h hn hlt
    subst hn
    interval_cases k <;> rfl
  case isFalse => rfl

theorem SupplyPolicy.toUInt8_eq_iff {s : SupplyPolicy} {n : UInt8} :
    s.toUInt8 = n ↔ s = ofUInt8 n :=
  code_eq_iff ofUInt8_toUInt8 toUInt8_ofUInt8

namespace Definition

/-- The definition with its texts as they are written. -/
def trimmed (d : Definition) : Definition :=
  { d with name := trimSpace d.name, symbol := trimSpace d.symbol }

@[simp] theorem validate_trimmed (d : Definition) :
    d.trimmed.validate = d.validate := by
  refine congrArg (· >>= _) (refuse_congr _ ?_)
  simp only [trimmed, trimSpace_trimSpace]

/-- Texts within the limits of the reader. -/
structure Short (d : Definition) : Prop where
  name : d.name.length ≤ 64
  symbol : d.symbol.length ≤ 16

/-- The payload the definition is read from. -/
def layout (d : Definition) : Bytes :=
  Writer.fixed d.tokenID ++ Writer.bytes d.name ++ Writer.bytes d.symbol ++
    Writer.u8 d.decimals ++ Writer.u8 d.supplyPolicy.toUInt8 ++
    Writer.u64 d.maxSupply ++ Writer.u64 d.currentSupply ++
    Writer.fixed d.mintAuthority ++ Writer.bool d.burnable ++
    Writer.bool d.transferable

theorem exact_read : Exact read layout Short := by
  refine Exact.of_fields (
    .field tokenID Reader.exact_fixed fun _ =>
    .field name (Reader.exact_bytes 64) fun _ =>
    .field symbol (Reader.exact_bytes 16) fun _ =>
    .field decimals Reader.exact_u8 fun _ =>
    .field (·.supplyPolicy.toUInt8) Reader.exact_u8 fun _ =>
    .field maxSupply Reader.exact_u64 fun _ =>
    .field currentSupply Reader.exact_u64 fun _ =>
    .field mintAuthority Reader.exact_fixed fun _ =>
    .field burnable Reader.exact_bool fun _ =>
    .field transferable Reader.exact_bool fun _ =>
    .pure fun d => ?_) ?_ ?_
  · cases d
    simp [SupplyPolicy.toUInt8_eq_iff, and_assoc]
  · simp [layout]
  · intro d
    constructor
    · rintro ⟨-, hname, hsymbol, -⟩
      exact ⟨hname, hsymbol⟩
    · intro h
      simpa using And.intro h.name h.symbol

end Definition

theorem parseDefinition_iff {data : Bytes} {d : Definition} :
    parseDefinition data = .ok d ↔
      data = d.layout ∧ d.Short ∧ d.validate = .ok () :=
  parse_checked Definition.exact_read

/-- A valid definition reads back with its texts trimmed. -/
theorem parseDefinition_encode {d : Definition} (hv : d.validate = .ok ())
    (hn : (trimSpace d.name).length ≤ 64)
    (hs : (trimSpace d.symbol).length ≤ 16) :
    parseDefinition d.encode = .ok d.trimmed :=
  parseDefinition_iff.2 ⟨rfl, ⟨hn, hs⟩, by rw [d.validate_trimmed, hv]⟩

theorem parseCreateToken_eq_ok {data : Bytes} {c : CreateToken}
    (h : parseCreateToken data = .ok c) : c.validate = .ok () := by
  simp only [parseCreateToken, ok_iff] at h
  obtain ⟨out, _, hval, rfl⟩ := h
  exact hval

-- ==== supply

namespace Definition

theorem mint_eq_ok {d d' : Definition} {amount : UInt64}
    (h : d.mint amount = .ok d') :
    d' = { d with currentSupply := d.currentSupply + amount } ∧
      d'.currentSupply.toNat = d.currentSupply.toNat + amount.toNat ∧
      d.supplyPolicy ≠ .fixed ∧ d'.validate = .ok () := by
  simp only [mint, ok_iff, not_or] at h
  obtain ⟨_, ⟨_, hfixed, hfits⟩, _, hval, rfl⟩ := h
  exact ⟨rfl, toNat_add_of_fits hfits, hfixed, hval⟩

theorem burn_eq_ok {d d' : Definition} {amount : UInt64}
    (h : d.burn amount = .ok d') :
    d' = { d with currentSupply := d.currentSupply - amount } ∧
      d'.currentSupply.toNat + amount.toNat = d.currentSupply.toNat ∧
      d'.validate = .ok () := by
  simp only [burn, ok_iff, not_or] at h
  obtain ⟨_, ⟨_, _, hle⟩, hval, rfl⟩ := h
  have hle' : amount ≤ d.currentSupply := UInt64.not_lt.1 hle
  refine ⟨rfl, ?_, hval⟩
  show (d.currentSupply - amount).toNat + amount.toNat = _
  rw [UInt64.toNat_sub_of_le _ _ hle']
  exact Nat.sub_add_cancel (UInt64.le_iff_toNat_le.1 hle')

end Definition

end ZephyrChain
