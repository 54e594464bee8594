/-
Proof-carrying transactions (`internal/v2/tx`). A transaction names the
objects it reads by id, version and hash, carries each of them as a
witness with a proof against the state root it was signed for, and asks
for its operations to be executed at that root.

The operation number stays the 16-bit number of the wire. The executor
switches on it, and `Op` lists the numbers it knows.
-/
import ZephyrChain.Object
import ZephyrChain.State.Smt

namespace ZephyrChain

open Lib

namespace Op

def transfer : UInt16 := 1
def createToken : UInt16 := 2
def deployContract : UInt16 := 3
def contractCall : UInt16 := 4
def computeOffer : UInt16 := 5
def computeJob : UInt16 := 6
def computeResult : UInt16 := 7
def computeAccept : UInt16 := 8
def computeIngestAssignment : UInt16 := 9
def computeIngestResult : UInt16 := 10
def computeFinalize : UInt16 := 11
def computeResolveReplicated : UInt16 := 12
def computeExpire : UInt16 := 13
def mintToken : UInt16 := 14
def burnToken : UInt16 := 15
def loanOffer : UInt16 := 16
def loanCancel : UInt16 := 17
def loanAccept : UInt16 := 18
def loanRepay : UInt16 := 19
def loanDefault : UInt16 := 20
def deviceCredentialRegister : UInt16 := 21
def deviceCredentialUpdate : UInt16 := 22
def deviceCredentialRevoke : UInt16 := 23
def crossLoanOffer : UInt16 := 24
def crossLoanAccept : UInt16 := 25
def crossLoanRepay : UInt16 := 26
def crossLoanSettle : UInt16 := 27
def crossLoanDefault : UInt16 := 28
def crossLoanExpire : UInt16 := 29

end Op

def txVersion : UInt16 := 2

def maxInputs : Nat := 4096

def maxOutputs : Nat := 4096

def maxOperations : Nat := 64

def maxOpPayload : Nat := 4194304

structure InputRef where
  objectID : ObjectID
  version : UInt64
  objectHash : Hash
  deriving DecidableEq

structure Operation where
  kind : UInt16
  payload : Bytes
  deriving DecidableEq

/-- An input object and the proof that the state holds it. -/
structure Witness where
  object : Object
  proof : State.Proof Hash

structure Transaction where
  version : UInt16
  network : NetworkID
  shardID : UInt32
  sender : AccountID
  senderPublicKey : Bytes
  stateRoot : Hash
  inputs : List InputRef
  outputs : List OutputSpec
  operations : List Operation
  fee : UInt64
  validUntilHeight : UInt64
  salt : Vector UInt8 16
  signature : Bytes
  witnesses : List Witness

-- ==== intent

def InputRef.encode (i : InputRef) : Bytes :=
  Writer.fixed i.objectID ++ Writer.u64 i.version ++
    Writer.fixed i.objectHash

def Operation.encode (op : Operation) : Bytes :=
  Writer.u16 op.kind ++ Writer.bytes op.payload

namespace Transaction

/-- The witnessed objects, in the order of the inputs. -/
def objects (t : Transaction) : List Object :=
  t.witnesses.map Witness.object

/-- What the sender signs: everything but the signature and the
witnesses. -/
def intentBytes (t : Transaction) : Bytes :=
  Writer.u16 t.version ++ Writer.fixed t.network ++ Writer.u32 t.shardID ++
    Writer.fixed t.sender ++ Writer.bytes t.senderPublicKey ++
    Writer.fixed t.stateRoot ++
    Writer.u32 (UInt32.ofNat t.inputs.length) ++
    t.inputs.flatMap InputRef.encode ++
    Writer.u32 (UInt32.ofNat t.outputs.length) ++
    t.outputs.flatMap (fun out => Writer.bytes out.canonicalBytes) ++
    Writer.u32 (UInt32.ofNat t.operations.length) ++
    t.operations.flatMap Operation.encode ++
    Writer.u64 t.fee ++ Writer.u64 t.validUntilHeight ++ t.salt.toList

def signingDigest (C : Crypto) (t : Transaction) : Bytes32 :=
  domainHash C "zephyr/transaction/signing/v2" t.intentBytes

def id (C : Crypto) (t : Transaction) : Hash :=
  domainHash C "zephyr/transaction/id/v2" t.intentBytes

/-- So is the sender. -/
theorem sender_of_intentBytes {t u : Transaction}
    (h : t.intentBytes = u.intentBytes) : t.sender = u.sender := by
  unfold intentBytes at h
  simp only [List.append_assoc] at h
  have hversion := List.append_inj h (by simp)
  have hnetwork := List.append_inj hversion.2 (by simp)
  have hshard := List.append_inj hnetwork.2 (by simp)
  have hsender := (List.append_inj hshard.2 (by simp)).1
  exact Vector.toList_inj.1 hsender

end Transaction

-- ==== validation

/-- The order of the P-256 group. -/
def p256Order : Nat :=
  0xffffffff00000000ffffffffffffffffbce6faada7179e84f3b9cac2fc632551

/-- A 64-byte signature in low-S form that verifies under the key. -/
def verifySignature (C : Crypto) (publicKey : Bytes) (digest : Bytes32)
    (signature : Bytes) : Except Error Unit := do
  refuse (signature.length ≠ 64) .signature
  let r := ofBe (signature.take 32)
  let s := ofBe (signature.drop 32)
  refuse (r = 0 ∨ s = 0 ∨ p256Order ≤ r ∨ p256Order ≤ s) .signature
  refuse (p256Order / 2 < s) .canonicalSig
  refuse (C.ecdsaVerify publicKey digest r s = false) .signature

namespace Transaction

/-- The checks on the inputs: no zero field, no object named twice. -/
def validateInputs (t : Transaction) : Except Error Unit := do
  refuse (∃ i ∈ t.inputs,
    IsZero32 i.objectID ∨ i.version = 0 ∨ IsZero32 i.objectHash) .txStructure
  refuse (¬ (t.inputs.map InputRef.objectID).Nodup) .txStructure

def validateStatic (C : Crypto) (t : Transaction) : Except Error Unit := do
  refuse (t.version ≠ txVersion) .version
  refuse (IsZero32 t.network ∨ IsZero32 t.stateRoot) .network
  refuse (t.senderPublicKey.length ≠ 65) .sender
  refuse (C.onCurve t.senderPublicKey = false) .sender
  refuse (accountIDFromPublicKey C t.senderPublicKey ≠ t.sender) .sender
  refuse (t.salt = Vector.replicate 16 0 ∨ maxInputs < t.inputs.length ∨
    maxOutputs < t.outputs.length ∨ t.operations.length = 0 ∨
    maxOperations < t.operations.length) .txStructure
  t.validateInputs
  forM t.outputs fun out => failWith .txStructure out.validate
  refuse (∃ op ∈ t.operations,
    op.kind = 0 ∨ maxOpPayload < op.payload.length) .txStructure
  verifySignature C t.senderPublicKey (t.signingDigest C) t.signature

def verifyForNetwork (C : Crypto) (t : Transaction) (network : NetworkID) :
    Except Error Unit := do
  refuse (t.network ≠ network) .network
  t.validateStatic C

/-- The checks on one input and its witness. -/
def verifyWitness (C : Crypto) (t : Transaction)
    (pair : InputRef × Witness) : Except Error Unit := do
  let i := pair.1
  let w := pair.2
  refuse (w.object.id ≠ i.objectID ∨ w.object.version ≠ i.version ∨
    w.object.hash C ≠ i.objectHash) .witness
  refuse (State.verify (State.smtHash C) t.stateRoot i.objectID
    (some (w.object.hash C).toList) w.proof = false) .witness

def verifyWitnesses (C : Crypto) (t : Transaction) : Except Error Unit := do
  refuse (t.witnesses.length ≠ t.inputs.length) .witness
  forM (t.inputs.zip t.witnesses) (t.verifyWitness C)

end Transaction

end ZephyrChain
