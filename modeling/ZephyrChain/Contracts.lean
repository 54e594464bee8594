/-
Contracts (`internal/v2/contracts`): deployments and calls as they travel,
the contract engine as an interface, and the guard that holds any engine
to its declared accesses, its fuel and its output limits.

The engine itself is a parameter: the source takes a map of engines from
its caller and falls back to a Starlark interpreter, whose library is not
part of the repository. `Runtime` is that interface, and everything the
protocol relies on is checked by `MeteredRuntime.execute`.
-/
import ZephyrChain.Codec.Exact
import ZephyrChain.Types
import Mathlib.Data.List.AList

namespace ZephyrChain

open Lib

def runtimeWASMv1 : Bytes := utf8 "wasm-v1"

def runtimeZephyrScriptV1 : Bytes := utf8 "zephyr-script-v1"

def maxModuleBytes : Nat := 4194304

def maxInitialStateBytes : Nat := 1048576

def maxArgumentsBytes : Nat := 1048576

def maxReturnBytes : Nat := 1048576

def maxEventBytes : Nat := 65536

def maxEvents : Nat := 1024

def maxAccesses : Nat := 4096

-- ==== modules

def validateWASMModule (code : Bytes) : Bool :=
  8 ≤ code.length ∧ code.length ≤ maxModuleBytes ∧
    code.take 4 = [0x00, 0x61, 0x73, 0x6d] ∧
    (code.drop 4).take 4 = [0x01, 0x00, 0x00, 0x00]

/-- `utf8.Valid`. -/
def utf8Valid (code : Bytes) : Bool :=
  (String.fromUTF8? ⟨code.toArray⟩).isSome

def validateScriptModule (code : Bytes) : Bool :=
  0 < code.length ∧ code.length ≤ maxModuleBytes ∧ utf8Valid code ∧
    (0 : UInt8) ∉ code

-- ==== deployments

structure Deployment where
  runtime : Bytes
  code : Bytes
  abi : UInt16
  upgradeAuthority : AccountID
  initialState : Bytes
  maxMemoryPages : UInt32
  deriving DecidableEq

namespace Deployment

def validate (d : Deployment) : Except Error Unit := do
  refuse (d.abi = 0 ∨ d.code.length = 0 ∨ maxModuleBytes < d.code.length ∨
    maxInitialStateBytes < d.initialState.length ∨ d.maxMemoryPages = 0 ∨
    IsZero32 d.upgradeAuthority) .invalidDeployment
  if d.runtime = runtimeWASMv1 then
    refuse (validateWASMModule d.code = false) .invalidModule
  else if d.runtime = runtimeZephyrScriptV1 then
    refuse (validateScriptModule d.code = false) .invalidModule
  else throw .invalidDeployment

def encode (d : Deployment) : Bytes :=
  Writer.bytes d.runtime ++ Writer.bytes d.code ++ Writer.u16 d.abi ++
    Writer.fixed d.upgradeAuthority ++ Writer.bytes d.initialState ++
    Writer.u32 d.maxMemoryPages

def marshalBinary (d : Deployment) : Except Error Bytes := do
  d.validate
  return d.encode

def read : Reader Deployment := do
  let runtime ← Reader.bytes 64
  let code ← Reader.bytes 4194304
  let abi ← Reader.u16
  let authority ← Reader.fixed
  let initial ← Reader.bytes 1048576
  let pages ← Reader.u32
  return ⟨runtime, code, abi, authority, initial, pages⟩

end Deployment

def parseDeployment (data : Bytes) : Except Error Deployment := do
  let deployment ← parseWith .contractWire Deployment.read data
  deployment.validate
  return deployment

theorem Deployment.exact_read : Exact read encode fun d =>
    d.runtime.length ≤ 64 ∧ d.code.length ≤ maxModuleBytes ∧
      d.initialState.length ≤ maxInitialStateBytes := by
  refine Exact.of_fields (
    .field runtime (Reader.exact_bytes _) fun _ =>
    .field code (Reader.exact_bytes _) fun _ =>
    .field abi Reader.exact_u16 fun _ =>
    .field upgradeAuthority Reader.exact_fixed fun _ =>
    .field initialState (Reader.exact_bytes _) fun _ =>
    .field maxMemoryPages Reader.exact_u32 fun _ =>
    .pure fun d => ?_) ?_ ?_
  · cases d
    simp [and_assoc]
  · simp [encode]
  · simp [maxModuleBytes, maxInitialStateBytes]

/-- A valid deployment reads back. -/
theorem parseDeployment_encode {d : Deployment} (h : d.validate = .ok ()) :
    parseDeployment d.encode = .ok d := by
  refine (parse_checked Deployment.exact_read).2 ⟨rfl, ?_, h⟩
  simp only [Deployment.validate, ok_iff, not_or, not_lt] at h
  obtain ⟨⟨_, _, hcode, hinitial, _⟩, hmodule⟩ := h
  refine ⟨?_, hcode, hinitial⟩
  split at hmodule
  case isTrue hwasm =>
    rw [hwasm]
    decide
  case isFalse =>
    split at hmodule
    case isTrue hscript =>
      rw [hscript]
      decide
    case isFalse => cases hmodule

structure StoredContract where
  id : ContractID
  deployment : Deployment
  deriving DecidableEq

namespace StoredContract

def marshalBinary (s : StoredContract) : Except Error Bytes := do
  refuse (IsZero32 s.id) .contractWire
  let deployment ← s.deployment.marshalBinary
  return Writer.fixed s.id ++ Writer.bytes deployment

def read : Reader (ContractID × Bytes) := do
  let id ← Reader.fixed
  let raw ← Reader.bytes (4194304 + 1048576 + 256)
  return (id, raw)

end StoredContract

def parseStoredContract (data : Bytes) : Except Error StoredContract := do
  let (id, raw) ← parseWith .contractWire StoredContract.read data
  let deployment ← failWith .contractWire (parseDeployment raw)
  refuse (IsZero32 id) .contractWire
  return ⟨id, deployment⟩

-- ==== calls

structure Access where
  objectID : ObjectID
  write : Bool
  deriving DecidableEq

structure Call where
  contractObject : ObjectID
  entrypoint : Bytes
  arguments : Bytes
  fuelLimit : UInt64
  accesses : List Access
  deriving DecidableEq

namespace Call

/-- The checks of `MarshalBinary`. -/
def validate (c : Call) : Except Error Unit := do
  refuse (IsZero32 c.contractObject ∨ c.entrypoint = [] ∨
    128 < c.entrypoint.length ∨ maxArgumentsBytes < c.arguments.length ∨
    c.fuelLimit = 0 ∨ maxAccesses < c.accesses.length) .contractWire
  refuse (∃ a ∈ c.accesses, IsZero32 a.objectID) .contractWire
  refuse (¬ (c.accesses.map Access.objectID).Nodup) .contractWire

def readAccess : Reader Access := do
  let id ← Reader.fixed
  let write ← Reader.bool
  return ⟨id, write⟩

def read : Reader Call := do
  let contractObject ← Reader.fixed
  let entrypoint ← Reader.bytes 128
  let arguments ← Reader.bytes 1048576
  let fuel ← Reader.u64
  let count ← Reader.u32
  liftM (refuse (maxAccesses < count.toNat) Error.contractWire)
  let accesses ← readMany readAccess count.toNat
  return ⟨contractObject, entrypoint, arguments, fuel, accesses⟩

end Call

def parseCall (data : Bytes) : Except Error Call := do
  let call ← parseWith .contractWire Call.read data
  call.validate
  return call

structure ContractReceipt where
  contractID : ContractID
  fuelUsed : UInt64
  returnHash : Hash
  eventRoot : Hash
  deriving DecidableEq

def ContractReceipt.marshalBinary (r : ContractReceipt) : Bytes :=
  Writer.fixed r.contractID ++ Writer.u64 r.fuelUsed ++
    Writer.fixed r.returnHash ++ Writer.fixed r.eventRoot

-- ==== engines

structure Request where
  contractID : ContractID
  runtime : Bytes
  code : Bytes
  entrypoint : Bytes
  arguments : Bytes
  accesses : List Access
  readValues : AList fun _ : ObjectID => Bytes
  fuelLimit : UInt64

structure ContractResult where
  returnData : Bytes
  fuelUsed : UInt64
  writes : AList fun _ : ObjectID => Bytes
  events : List Bytes

/-- A deterministic contract engine. -/
structure Runtime where
  validateModule : Bytes → Except Error Unit
  execute : Request → Except Error ContractResult

/-- The declared accesses, no object twice and no value outside them. -/
def validateRequest (request : Request) : Except Error Unit := do
  refuse (IsZero32 request.contractID ∨ trimSpace request.entrypoint = [] ∨
    128 < request.entrypoint.length ∨ maxModuleBytes < request.code.length ∨
    maxArgumentsBytes < request.arguments.length ∨ request.fuelLimit = 0 ∨
    maxAccesses < request.accesses.length) .invalidRequest
  refuse (∃ a ∈ request.accesses, IsZero32 a.objectID) .invalidRequest
  refuse (¬ (request.accesses.map Access.objectID).Nodup) .invalidRequest
  refuse (∃ id ∈ request.readValues.keys,
    id ∉ request.accesses.map Access.objectID) .undeclaredAccess

/-- `MeteredRuntime.Execute`: the engine's result, when it kept to the
request. -/
def Runtime.meteredExecute (runtime : Runtime) (request : Request) :
    Except Error ContractResult := do
  validateRequest request
  if 0 < request.code.length then runtime.validateModule request.code
  let result ← runtime.execute request
  refuse (request.fuelLimit < result.fuelUsed) .fuelExhausted
  refuse (maxReturnBytes < result.returnData.length ∨
    maxEvents < result.events.length) .invalidContractResult
  refuse (∃ event ∈ result.events, maxEventBytes < event.length)
    .invalidContractResult
  refuse (∃ id ∈ result.writes.keys,
    ⟨id, true⟩ ∉ request.accesses) .undeclaredAccess
  return result

end ZephyrChain
