/-
The sparse Merkle tree of the world state (`internal/v2/state`): 256-bit
keys, one node map that keeps only nodes different from the default of
their depth, and proofs that leave default siblings out.

# The hash

All functions take the node hash `A` as a parameter, one function out of
the three kinds of preimage (`Lib.SparseMerkle.Preimage`), and are
generic in the digest type. `smtHash` is the hash of the source.

# Maps and loops

`values` and `nodes` are Go maps, here partial functions. A loop over
depths is a recursion on the depth still to be done. `Apply` and
`Preview` receive a Go map, which has no order of its own: `AList` is a
map together with the order one iteration happens to use.

A nil value means absence (`none`); an empty slice is a value
(`some []`).
-/
import ZephyrChain.Object
import ZephyrChain.Lib.SparseMerkle
import Mathlib.Data.List.AList
import Mathlib.Data.List.Sort

namespace ZephyrChain.State

open Lib Lib.SparseMerkle

/-- Depth of the leaves: one level per key bit. -/
def treeDepth : Nat := 256

-- ==== bit access

/-- A byte of a 32-byte array. -/
def byteAt (key : Bytes32) (byteIndex : Nat) : UInt8 :=
  key[byteIndex]?.getD 0

/-- Keep the first `depth` bits and clear the others. -/
def prefixAtDepth (key : Bytes32) (depth : Nat) : Bytes32 :=
  if depth = 0 then Bytes32.zero
  else if treeDepth ≤ depth then key
  else
    let fullBytes := depth / 8
    let remainingBits := depth % 8
    if remainingBits = 0 then
      Vector.ofFn fun i => if i < fullBytes then key[i] else 0
    else
      let mask : UInt8 := 0xFF <<< UInt8.ofNat (8 - remainingBits)
      Vector.ofFn fun i =>
        if i < fullBytes then key[i]
        else if i = fullBytes then key[i] &&& mask
        else 0

/-- Bit `bitIndex` of a key, counted from its most significant bit. -/
def bitAt (key : Bytes32) (bitIndex : Nat) : UInt8 :=
  (byteAt key (bitIndex / 8) >>> UInt8.ofNat (7 - bitIndex % 8)) &&& 1

def toggleBit (key : Bytes32) (bitIndex : Nat) : Bytes32 :=
  key.setIfInBounds (bitIndex / 8)
    (byteAt key (bitIndex / 8) ^^^ (1 <<< UInt8.ofNat (7 - bitIndex % 8)))

/-- Set a bitmap bit; bitmap bits count from the least significant. -/
def setBitmapBit (bitmap : Bytes32) (index : Nat) : Bytes32 :=
  bitmap.setIfInBounds (index / 8)
    (byteAt bitmap (index / 8) ||| (1 <<< UInt8.ofNat (index % 8)))

def bitmapBit (bitmap : Bytes32) (index : Nat) : Bool :=
  byteAt bitmap (index / 8) &&& (1 <<< UInt8.ofNat (index % 8)) != 0

-- ==== hashing

/-- The three node hashes of the tree as one function. -/
abbrev Hasher (H : Type) := Preimage Hash Bytes H → H

variable {H : Type}

def leafHash (A : Hasher H) (key : Hash) (value : Bytes) : H :=
  A (.leaf key value)

def branchHash (A : Hasher H) (left right : H) : H :=
  A (.branch left right)

/-- The bytes the source hashes for a preimage, with its domain. -/
def smtPayload : Preimage Hash Bytes Hash → String × Bytes
  | .empty => ("zephyr/smt/empty-leaf/v2", [])
  | .leaf key value =>
    ("zephyr/smt/leaf/v2", Writer.fixed key ++ Writer.bytes value)
  | .branch left right =>
    ("zephyr/smt/branch/v2", Writer.fixed left ++ Writer.fixed right)

/-- The node hash of the source. -/
def smtHash (C : Crypto) : Hasher Hash := fun x =>
  domainHash C (smtPayload x).1 (smtPayload x).2

/-- The digests of empty subtrees, by depth. -/
def defaults (A : Hasher H) (depth : Nat) : H :=
  defaultNode A (treeDepth - depth)

/-- The digest at the leaf of a key: its value, or nothing. -/
def leafDigest (A : Hasher H) (key : Hash) : Option Bytes → H
  | some value => leafHash A key value
  | none => defaults A treeDepth

-- ==== the tree

structure NodeKey where
  depth : Nat
  keyPrefix : Bytes32
  deriving DecidableEq

abbrev NodeMap (H : Type) := NodeKey → Option H

@[ext] structure Tree (H : Type) where
  values : Hash → Option Bytes
  nodes : NodeMap H

def newTree (H : Type) : Tree H := ⟨fun _ => none, fun _ => none⟩

section Update

variable (A : Hasher H)

/-- The digest a node map reports at a depth and prefix. -/
def getNode (nodes : NodeMap H) (depth : Nat) (keyPrefix : Bytes32) : H :=
  (nodes ⟨depth, prefixAtDepth keyPrefix depth⟩).getD (defaults A depth)

def Tree.root (t : Tree H) : H := getNode A t.nodes 0 Bytes32.zero

/-- The parent at `depth` of a key's path, from the two nodes `lookup`
reports below it: the common body of the loops of `updateLocked` and
`Preview`. -/
def parentHash (lookup : Nat → Bytes32 → H) (rawKey : Bytes32)
    (depth : Nat) : H :=
  let childPrefix := prefixAtDepth rawKey (depth + 1)
  let siblingPrefix := toggleBit childPrefix depth
  let child := lookup (depth + 1) childPrefix
  let sibling := lookup (depth + 1) siblingPrefix
  if bitAt rawKey depth = 0 then branchHash A child sibling
  else branchHash A sibling child

variable [DecidableEq H]

/-- The loop of `updateLocked` over the depths below `depth`, downwards:
a parent equal to the default of its depth is not kept. -/
def rehashPath (rawKey : Bytes32) : Nat → NodeMap H → NodeMap H
  | 0, nodes => nodes
  | depth + 1, nodes =>
    let parent := parentHash A (getNode A nodes) rawKey depth
    let parentKey : NodeKey := ⟨depth, prefixAtDepth rawKey depth⟩
    rehashPath rawKey depth
      (Function.update nodes parentKey
        (if parent = defaults A depth then none else some parent))

namespace Tree

/-- `updateLocked`: write or delete one leaf and rehash its path. -/
def updateLocked (t : Tree H) (key : Hash) (value : Option Bytes) :
    Tree H :=
  let leafNode : NodeKey := ⟨treeDepth, prefixAtDepth key treeDepth⟩
  let nodes := Function.update t.nodes leafNode
    (value.map (leafHash A key))
  ⟨Function.update t.values key value, rehashPath A key treeDepth nodes⟩

def update (t : Tree H) (key : Hash) (value : Option Bytes) : Tree H × H :=
  let t := t.updateLocked A key value
  (t, t.root A)

/-- The keys and values of an update map, in one iteration order. -/
abbrev Updates := AList fun _ : Hash => Option Bytes

def apply (t : Tree H) (updates : Updates) : Tree H × H :=
  let t := updates.entries.foldl
    (fun t entry => t.updateLocked A entry.1 entry.2) t
  (t, t.root A)

-- ==== preview

/-- What `Preview` reads at a depth and prefix: the overlay hides the
committed node. -/
def overlayLookup (t : Tree H) (overlay : NodeMap H) (depth : Nat)
    (keyPrefix : Bytes32) : H :=
  let key : NodeKey := ⟨depth, prefixAtDepth keyPrefix depth⟩
  match overlay key with
  | some hash => hash
  | none => (t.nodes key).getD (defaults A depth)

/-- The loop of `Preview` over one key's path: the overlay keeps every
node, default or not. -/
def overlayPath (t : Tree H) (rawKey : Bytes32) :
    Nat → NodeMap H → NodeMap H
  | 0, overlay => overlay
  | depth + 1, overlay =>
    let parentKey : NodeKey := ⟨depth, prefixAtDepth rawKey depth⟩
    overlayPath t rawKey depth
      (Function.update overlay parentKey
        (some (parentHash A (t.overlayLookup A overlay) rawKey depth)))

/-- One key of `Preview`: its leaf, then its path. -/
def overlayKey (t : Tree H) (overlay : NodeMap H) (key : Hash)
    (value : Option Bytes) : NodeMap H :=
  overlayPath A t key treeDepth
    (Function.update overlay ⟨treeDepth, key⟩
      (some (leafDigest A key value)))

/-- The root the tree would have after `updates`, without applying
them. -/
def preview (t : Tree H) (updates : Updates) : H :=
  if updates.entries.isEmpty then t.root A
  else
    let keys := updates.keys.insertionSort Bytes32.Before
    let overlay := keys.foldl
      (fun overlay key =>
        overlayKey A t overlay key ((updates.lookup key).getD none))
      (fun _ => none)
    match overlay ⟨0, Bytes32.zero⟩ with
    | some root => root
    | none => t.root A

end Tree

-- ==== proofs

structure Proof (H : Type) where
  present : Bool
  bitmap : Bytes32
  siblings : List H

/-- The loop of `Prove` from a depth up to the root: record the siblings
that are not the default of their depth. -/
def Tree.proveFrom (t : Tree H) (rawKey : Bytes32) :
    Nat → Bytes32 × List H → Bytes32 × List H
  | 0, acc => acc
  | depth + 1, (bitmap, siblings) =>
    let siblingPrefix := toggleBit (prefixAtDepth rawKey (depth + 1)) depth
    let sibling := getNode A t.nodes (depth + 1) siblingPrefix
    t.proveFrom rawKey depth
      (if sibling = defaults A (depth + 1) then (bitmap, siblings)
      else (setBitmapBit bitmap (treeDepth - (depth + 1)),
        siblings ++ [sibling]))

/-- The loop of `Verify` from a depth up to the root. At `depth + 1` the
source's counter `i` is `Depth - (depth + 1)` and its bit index is
`depth`. -/
def verifyFrom (root : H) (rawKey : Bytes32) (proof : Proof H) :
    Nat → H → Nat → Bool
  | 0, current, siblingIndex =>
    siblingIndex = proof.siblings.length && current = root
  | depth + 1, current, siblingIndex =>
    let parent := fun sibling =>
      if bitAt rawKey depth = 0 then branchHash A current sibling
      else branchHash A sibling current
    if bitmapBit proof.bitmap (treeDepth - (depth + 1)) then
      match proof.siblings[siblingIndex]? with
      | none => false
      | some sibling =>
        verifyFrom root rawKey proof depth (parent sibling)
          (siblingIndex + 1)
    else
      verifyFrom root rawKey proof depth
        (parent (defaults A (depth + 1))) siblingIndex

def verify (root : H) (key : Hash) (value : Option Bytes)
    (proof : Proof H) : Bool :=
  if proof.present ≠ value.isSome then false
  else
    verifyFrom A root key proof treeDepth (leafDigest A key value) 0

end Update

end ZephyrChain.State
