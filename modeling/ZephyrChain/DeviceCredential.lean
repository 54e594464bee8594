/-
Device credentials (`internal/v2/devicecredential`): the key of a device an
account has registered, what the device may do, and until when.
-/
import ZephyrChain.Types

namespace ZephyrChain

open Lib

def credentialVersion : UInt16 := 1

/-- The five capability bits. The source numbers them with `1 << iota`
behind a first constant, so the lowest one is `1 << 1`. -/
def supportedCapabilities : UInt32 := 0b111110

def credentialObjectIndex : UInt32 := 0xD1000000

variable (C : Crypto)

def validPublicKey (publicKey : Bytes) : Bool :=
  publicKey.length = 65 ∧ C.onCurve publicKey

/-- Some capability, and only supported ones. -/
def ValidCapabilities (capabilities : UInt32) : Prop :=
  capabilities ≠ 0 ∧ capabilities &&& ~~~ supportedCapabilities = 0

instance (capabilities : UInt32) :
    Decidable (ValidCapabilities capabilities) :=
  inferInstanceAs (Decidable (_ ∧ _))

/-- The version number in front of a record. -/
def Reader.credentialVersion : Reader Unit := do
  let v ← Reader.u16
  liftM (refuse (v ≠ ZephyrChain.credentialVersion) Error.credential)

-- ==== specs

structure CredentialSpec where
  devicePublicKey : Bytes
  capabilities : UInt32
  expiresHeight : UInt64
  deriving DecidableEq

namespace CredentialSpec

def validate (s : CredentialSpec) : Except Error Unit :=
  refuse (validPublicKey C s.devicePublicKey = false ∨
    ¬ ValidCapabilities s.capabilities) .credential

def read : Reader CredentialSpec := do
  Reader.credentialVersion
  let key ← Reader.bytes 65
  let capabilities ← Reader.u32
  let expires ← Reader.u64
  return ⟨key, capabilities, expires⟩

end CredentialSpec

def parseCredentialSpec (data : Bytes) : Except Error CredentialSpec := do
  let out ← parseWith .credential CredentialSpec.read data
  out.validate C
  return out

-- ==== credentials

structure Credential where
  owner : AccountID
  devicePublicKey : Bytes
  capabilities : UInt32
  issuedHeight : UInt64
  expiresHeight : UInt64
  sequence : UInt64
  deriving DecidableEq

namespace Credential

def validate (c : Credential) : Except Error Unit :=
  refuse (IsZero32 c.owner ∨ c.issuedHeight = 0 ∨ c.sequence = 0 ∨
    validPublicKey C c.devicePublicKey = false ∨
    ¬ ValidCapabilities c.capabilities ∨
    (c.expiresHeight ≠ 0 ∧ c.expiresHeight ≤ c.issuedHeight)) .credential

def encode (c : Credential) : Bytes :=
  Writer.u16 credentialVersion ++ Writer.fixed c.owner ++
    Writer.bytes c.devicePublicKey ++ Writer.u32 c.capabilities ++
    Writer.u64 c.issuedHeight ++ Writer.u64 c.expiresHeight ++
    Writer.u64 c.sequence

def marshalBinary (c : Credential) : Except Error Bytes := do
  c.validate C
  return c.encode

def read : Reader Credential := do
  Reader.credentialVersion
  let owner ← Reader.fixed
  let key ← Reader.bytes 65
  let capabilities ← Reader.u32
  let issued ← Reader.u64
  let expires ← Reader.u64
  let sequence ← Reader.u64
  return ⟨owner, key, capabilities, issued, expires, sequence⟩

end Credential

def parseCredential (data : Bytes) : Except Error Credential := do
  let out ← parseWith .credential Credential.read data
  out.validate C
  return out

-- ==== references

structure CredentialUpdate where
  objectID : ObjectID
  spec : CredentialSpec
  deriving DecidableEq

def CredentialUpdate.read : Reader (ObjectID × Bytes) := do
  Reader.credentialVersion
  let id ← Reader.fixed
  let raw ← Reader.bytes 256
  return (id, raw)

def parseCredentialUpdate (data : Bytes) :
    Except Error CredentialUpdate := do
  let (id, raw) ← parseWith .credential CredentialUpdate.read data
  let spec ← failWith .credential (parseCredentialSpec C raw)
  refuse (IsZero32 id) .credential
  return ⟨id, spec⟩

def readCredentialRef : Reader ObjectID := do
  Reader.credentialVersion
  Reader.fixed

/-- `ParseRef`: the id of a credential object. -/
def parseCredentialRef (data : Bytes) : Except Error ObjectID := do
  let id ← parseWith .credential readCredentialRef data
  refuse (IsZero32 id) .credential
  return id

end ZephyrChain
