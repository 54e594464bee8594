/-
Transactions on the wire (`internal/v2/tx`: transaction.go, and the
codec of state proofs in `internal/v2/state`: smt.go).

A transaction is three length-prefixed sections: the intent, which is
what the sender signs, the signature, and a row of witnesses. The writer
bounds the whole payload; the reader bounds the payload, the intent and
each field.
-/
import ZephyrChain.Tx
import ZephyrChain.Codec.Exact

namespace ZephyrChain

open Lib

-- ==== state proofs

namespace State

/-- The levels whose sibling a proof carries. -/
def bitmapCount (bitmap : Bytes32) : Nat :=
  (List.range treeDepth).countP fun i => bitmapBit bitmap i

def Proof.marshalBinary (p : Proof Hash) : Bytes :=
  Writer.bool p.present ++ Writer.fixed p.bitmap ++
    Writer.u16 (UInt16.ofNat p.siblings.length) ++
    p.siblings.flatMap Writer.fixed

def Proof.read : Reader (Proof Hash) := do
  let present ← Reader.bool
  let bitmap ← Reader.fixed
  let count ← Reader.u16
  liftM (refuse (treeDepth < count.toNat) Error.invalidProof)
  let siblings ← readMany Reader.fixed count.toNat
  return ⟨present, bitmap, siblings⟩

def parseProof (data : Bytes) : Except Error (Proof Hash) := do
  let proof ← parseWith .invalidProof Proof.read data
  refuse (bitmapCount proof.bitmap ≠ proof.siblings.length) .invalidProof
  return proof

end State

-- ==== transactions

/-- `MaxWireBytes`. -/
def maxWireBytes : Nat := 33554432

def maxIntentBytes : UInt32 := 25165824

def Witness.encode (w : Witness) : Bytes :=
  Writer.bytes w.object.canonicalBytes ++ Writer.bytes w.proof.marshalBinary

namespace Transaction

/-- The sections of a transaction. -/
def wireBytes (t : Transaction) : Bytes :=
  Writer.bytes t.intentBytes ++ Writer.bytes t.signature ++
    Writer.u32 (UInt32.ofNat t.witnesses.length) ++
    t.witnesses.flatMap Witness.encode

def marshalBinary (C : Crypto) (t : Transaction) : Except Error Bytes := do
  t.validateStatic C
  refuse (t.witnesses.length ≠ t.inputs.length) .witness
  refuse (maxWireBytes < t.wireBytes.length) .wire
  return t.wireBytes

def readInput : Reader InputRef := do
  let id ← Reader.fixed
  let version ← Reader.u64
  let hash ← Reader.fixed
  return ⟨id, version, hash⟩

def readOutput : Reader OutputSpec := do
  let raw ← Reader.bytes (maxObjectDataBytes + 64)
  liftM (parseOutputSpec raw)

def readOperation : Reader Operation := do
  let kind ← Reader.u16
  let payload ← Reader.bytes (UInt32.ofNat maxOpPayload)
  return ⟨kind, payload⟩

/-- `Fixed(16)` copied into the salt. -/
def readSalt : Reader (Vector UInt8 16) := do
  let b ← Reader.take 16
  return Vector.ofFn fun i => b.getD i 0

/-- The fields of an intent; signature and witnesses come behind it. -/
def readIntent : Reader Transaction := do
  let version ← Reader.u16
  let network ← Reader.fixed
  let shardID ← Reader.u32
  let sender ← Reader.fixed
  let publicKey ← Reader.bytes 65
  let stateRoot ← Reader.fixed
  let inputCount ← Reader.u32
  liftM (refuse (maxInputs < inputCount.toNat) Error.wire)
  let inputs ← readMany readInput inputCount.toNat
  let outputCount ← Reader.u32
  liftM (refuse (maxOutputs < outputCount.toNat) Error.wire)
  let outputs ← readMany readOutput outputCount.toNat
  let opCount ← Reader.u32
  liftM (refuse (opCount = 0 ∨ maxOperations < opCount.toNat) Error.wire)
  let operations ← readMany readOperation opCount.toNat
  let fee ← Reader.u64
  let validUntil ← Reader.u64
  let salt ← readSalt
  return ⟨version, network, shardID, sender, publicKey, stateRoot, inputs,
    outputs, operations, fee, validUntil, salt, [], []⟩

end Transaction

def parseIntent (data : Bytes) : Except Error Transaction :=
  parseWith .wire Transaction.readIntent data

namespace Transaction

def readWitness : Reader Witness := do
  let objectBytes ← Reader.bytes (maxObjectDataBytes + 128)
  let object ← liftM (parseObject objectBytes)
  let proofBytes ← Reader.bytes 16384
  let proof ← liftM (State.parseProof proofBytes)
  return ⟨object, proof⟩

/-- The sections in order, each with the error the source gives it. -/
def read (C : Crypto) : Reader Transaction := do
  let intent ← Reader.orFail .wire (Reader.bytes maxIntentBytes)
  let signed ← liftM (parseIntent intent)
  let signature ← Reader.orFail .wire (Reader.bytes 64)
  liftM (refuse (signature.length ≠ 64) Error.wire)
  let count ← Reader.orFail .witness Reader.u32
  liftM (refuse (maxInputs < count.toNat ∨
    count.toNat ≠ signed.inputs.length) Error.witness)
  let witnesses ← Reader.orFail .wire (readMany readWitness count.toNat)
  Reader.orFail .wire Reader.done
  let t := { signed with signature, witnesses }
  liftM (t.validateStatic C)
  return t

end Transaction

def parseTransaction (C : Crypto) (data : Bytes) :
    Except Error Transaction := do
  refuse (data.length = 0 ∨ maxWireBytes < data.length) .wire
  let out ← (Transaction.read C).run data
  return out.1

end ZephyrChain
