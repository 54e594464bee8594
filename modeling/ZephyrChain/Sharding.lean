/-
Shards (`internal/v2/sharding`): routing accounts and objects to shards,
the per-shard commitments a global header binds together, and the
receipts that carry outputs from one shard to another.

Each receipt leaves a marker object on the shard that imports it. The
marker's id is derived from the receipt's hash, so a second import would
create an object that exists already.
-/
import ZephyrChain.Object
import ZephyrChain.Merkle
import Mathlib.Data.List.Sort

namespace ZephyrChain

open Lib

-- ==== routing

structure Router where
  shardCount : UInt32

namespace Router

def shardForAccount (r : Router) (account : AccountID) :
    Except Error UInt32 := do
  refuse (r.shardCount = 0 ∨ IsZero32 account) .shardCount
  return accountShard account r.shardCount

def shardForObject (r : Router) (id : ObjectID) : Except Error UInt32 := do
  refuse (r.shardCount = 0 ∨ IsZero32 id) .shardCount
  refuse (r.shardCount ≤ objectShard id) .shardCount
  return objectShard id

end Router

-- ==== commitments

structure Commitment where
  shardID : UInt32
  stateRoot : Hash
  receiptRoot : Hash
  dataRoot : Hash
  deriving DecidableEq

namespace Commitment

def canonicalBytes (c : Commitment) : Bytes :=
  Writer.u32 c.shardID ++ Writer.fixed c.stateRoot ++
    Writer.fixed c.receiptRoot ++ Writer.fixed c.dataRoot

def hash (C : Crypto) (c : Commitment) : Hash :=
  Merkle.leaf C "shard-commitment" c.canonicalBytes

end Commitment

/-- Commitments in the order of their shards. Input that is in order
already is used as it is. -/
def sortedCommitments (commitments : List Commitment) :
    Except Error (List Commitment) := do
  refuse (commitments = []) .shardCount
  let out :=
    if commitments.Pairwise fun a b => a.shardID < b.shardID then commitments
    else commitments.insertionSort fun a b => a.shardID ≤ b.shardID
  refuse (¬ (out.map Commitment.shardID).Nodup) .shardCount
  refuse (∃ c ∈ out, IsZero32 c.stateRoot) .shardCount
  return out

def commitmentRoot (C : Crypto) (commitments : List Commitment) :
    Except Error Hash := do
  let sorted ← sortedCommitments commitments
  return Merkle.root C (sorted.map (Commitment.hash C))

/-- The commitment of a shard, and its proof. -/
def commitmentProof (C : Crypto) (commitments : List Commitment)
    (shardID : UInt32) : Except Error (Commitment × Merkle.Proof) := do
  let sorted ← sortedCommitments commitments
  let found ← require (sorted.zipIdx.find? fun entry =>
    entry.1.shardID = shardID) .receipt
  let proof ← require (Merkle.buildProof C
    (sorted.map (Commitment.hash C)) found.2) .merkleIndex
  return (found.1, proof)

structure GlobalHeader where
  version : UInt16
  network : NetworkID
  height : UInt64
  parentHash : Hash
  shardCommitmentRoot : Hash
  validatorRoot : Hash
  nextValidatorRoot : Hash
  dataRoot : Hash
  certificateHash : Hash
  deriving DecidableEq

namespace GlobalHeader

/-- The committee root authorized for the following height; a zero next
root keeps the current committee. -/
def effectiveNextValidatorRoot (h : GlobalHeader) : Hash :=
  if IsZero32 h.nextValidatorRoot then h.validatorRoot
  else h.nextValidatorRoot

def canonicalBytes (h : GlobalHeader) : Bytes :=
  Writer.u16 h.version ++ Writer.fixed h.network ++ Writer.u64 h.height ++
    Writer.fixed h.parentHash ++ Writer.fixed h.shardCommitmentRoot ++
    Writer.fixed h.validatorRoot ++ Writer.fixed h.nextValidatorRoot ++
    Writer.fixed h.dataRoot ++ Writer.fixed h.certificateHash

def read : Reader GlobalHeader := do
  let version ← Reader.u16
  liftM (refuse (version ≠ 2) Error.shardCount)
  let network ← Reader.fixed
  let height ← Reader.u64
  liftM (refuse (height = 0) Error.shardCount)
  let parentHash ← Reader.fixed
  let shardRoot ← Reader.fixed
  let validatorRoot ← Reader.fixed
  let nextValidatorRoot ← Reader.fixed
  let dataRoot ← Reader.fixed
  let certificateHash ← Reader.fixed
  return ⟨version, network, height, parentHash, shardRoot, validatorRoot,
    nextValidatorRoot, dataRoot, certificateHash⟩

end GlobalHeader

def parseGlobalHeader (data : Bytes) : Except Error GlobalHeader := do
  let h ← parseWith .shardCount GlobalHeader.read data
  refuse (IsZero32 h.network ∨ IsZero32 h.shardCommitmentRoot ∨
    IsZero32 h.validatorRoot) .shardCount
  return h

/-- `MarshalBinary`: the canonical bytes, if they can be read back. -/
def GlobalHeader.marshalBinary (h : GlobalHeader) : Except Error Bytes := do
  let _ ← parseGlobalHeader h.canonicalBytes
  return h.canonicalBytes

-- ==== receipts

structure CrossShardReceipt where
  sourceShard : UInt32
  destinationShard : UInt32
  sourceHeight : UInt64
  transactionID : Hash
  outputIndex : UInt32
  output : OutputSpec
  sourceStateRoot : Hash
  deriving DecidableEq

namespace CrossShardReceipt

def validate (r : CrossShardReceipt) : Except Error Unit := do
  refuse (r.sourceShard = r.destinationShard ∨ r.sourceHeight = 0 ∨
    IsZero32 r.transactionID ∨ IsZero32 r.sourceStateRoot) .receipt
  r.output.validate

/-- The bytes of `CanonicalBytes` once the receipt is valid. -/
def encode (r : CrossShardReceipt) : Bytes :=
  Writer.u32 r.sourceShard ++ Writer.u32 r.destinationShard ++
    Writer.u64 r.sourceHeight ++ Writer.fixed r.transactionID ++
    Writer.u32 r.outputIndex ++ Writer.bytes r.output.canonicalBytes ++
    Writer.fixed r.sourceStateRoot

def canonicalBytes (r : CrossShardReceipt) : Except Error Bytes := do
  r.validate
  return r.encode

def hash (C : Crypto) (r : CrossShardReceipt) : Except Error Hash := do
  let payload ← r.canonicalBytes
  return Merkle.leaf C "cross-shard-receipt" payload

/-- The object the receipt becomes on its destination shard. -/
def destinationObject (C : Crypto) (r : CrossShardReceipt) :
    Except Error Object := do
  r.validate
  return {
    id := objectIDForShard C r.transactionID r.outputIndex r.destinationShard
    version := 1
    owner := r.output.owner
    kind := r.output.kind
    data := r.output.data }

end CrossShardReceipt

/-- The canonical leaf order of a batch of receipts. -/
def receiptHashes (C : Crypto) (receipts : List CrossShardReceipt) :
    Except Error (List Hash) := do
  let hashes ← receipts.mapM (CrossShardReceipt.hash C)
  refuse (¬ hashes.Nodup) .receiptReplay
  return hashes.insertionSort Bytes32.Before

/-- `ReceiptBatch.Root`. -/
def receiptRoot (C : Crypto) (receipts : List CrossShardReceipt) :
    Except Error Hash := do
  let hashes ← receiptHashes C receipts
  return Merkle.root C hashes

/-- `ReceiptBatch.Proof`. The hashes are sorted, so `sort.Search` returns
the index of the first one that is not below the target. -/
def receiptProof (C : Crypto) (receipts : List CrossShardReceipt)
    (receipt : CrossShardReceipt) : Except Error Merkle.Proof := do
  let target ← receipt.hash C
  let hashes ← receiptHashes C receipts
  let index := hashes.findIdx fun hash => target.Before hash
  refuse (hashes[index]? ≠ some target) .receiptProof
  require (Merkle.buildProof C hashes index) .merkleIndex

/-- The source shard's commitment belongs to the header, and the receipt
to that commitment's receipts. -/
def verifyFinalizedReceipt (C : Crypto) (header : GlobalHeader)
    (commitment : Commitment) (commitmentProof : Merkle.Proof)
    (receipt : CrossShardReceipt) (receiptProof : Merkle.Proof) :
    Except Error Unit := do
  receipt.validate
  refuse (commitment.shardID ≠ receipt.sourceShard ∨
    header.height ≠ receipt.sourceHeight) .receiptProof
  refuse (Merkle.verify C header.shardCommitmentRoot (commitment.hash C)
    commitmentProof = false) .receiptProof
  let receiptHash ← receipt.hash C
  refuse (Merkle.verify C commitment.receiptRoot receiptHash
    receiptProof = false) .receiptProof

/-- The object that records on the destination shard that a receipt has
been imported. -/
def receiptMarker (C : Crypto) (receipt : CrossShardReceipt) :
    Except Error Object := do
  let hash ← receipt.hash C
  return {
    id := objectIDForShard C hash 0xfffffffe receipt.destinationShard
    version := 1
    owner := Bytes32.zero
    kind := .system
    data := hash.toList }

end ZephyrChain
