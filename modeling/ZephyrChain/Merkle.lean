/-
Merkle trees over lists of hashes (`internal/v2/merkle`). The list is
padded with a fixed empty leaf to a power of two; a level is reduced to
the next one in place, in one buffer, the way the source does it, so that
behind the entries of the current level the buffer holds stale ones.

The loops of the source halve or double a counter. They run on fuel
here: the starting value of the counter is always enough.
-/
import ZephyrChain.Types

namespace ZephyrChain.Merkle

open Lib

variable (C : Crypto)

def leaf (domain : String) (payload : Bytes) : Hash :=
  domainHash C ("zephyr/merkle/leaf/v2/" ++ domain) payload

def branch (left right : Hash) : Hash :=
  domainHash C "zephyr/merkle/branch/v2" (left.toList ++ right.toList)

def emptyLeaf : Hash := domainHash C "zephyr/merkle/empty/v2" []

-- ==== shape

/-- `for p < n { p <<= 1 }`. -/
def doubleUntil (n : Nat) : Nat → Nat → Nat
  | 0, p => p
  | fuel + 1, p => if p < n then doubleUntil n fuel (p * 2) else p

def nextPowerOfTwo (n : Nat) : Nat :=
  if n ≤ 1 then 1 else doubleUntil n n 1

/-- `for n := target; n > 1; n /= 2 { depth++ }`. -/
def halvings : Nat → Nat → Nat
  | 0, _ => 0
  | fuel + 1, n => if 1 < n then halvings fuel (n / 2) + 1 else 0

/-- The lowest level: the leaves and the padding behind them. -/
def padded (leaves : List Hash) : List Hash :=
  leaves ++ List.replicate (nextPowerOfTwo leaves.length - leaves.length)
    (emptyLeaf C)

-- ==== root

/-- An entry of the level buffer. -/
def entry (level : List Hash) (i : Nat) : Hash := level.getD i Bytes32.zero

/-- One pass over the buffer: parents overwrite the entries in front. -/
def reduceLevel (width : Nat) (level : List Hash) : List Hash :=
  (List.range ((width + 1) / 2)).foldl
    (fun level j =>
      level.set j (branch C (entry level (2 * j)) (entry level (2 * j + 1))))
    level

/-- Reduce level after level until one entry is left. -/
def reduceAll : Nat → Nat → List Hash → List Hash
  | 0, _, level => level
  | fuel + 1, width, level =>
    if 1 < width then reduceAll fuel (width / 2) (reduceLevel C width level)
    else level

def root (leaves : List Hash) : Hash :=
  if leaves = [] then emptyLeaf C
  else
    let width := nextPowerOfTwo leaves.length
    entry (reduceAll C width width (padded C leaves)) 0

-- ==== proofs

structure Proof where
  index : UInt32
  leafCount : UInt32
  siblings : List Hash
  deriving DecidableEq

/-- The siblings along the path of `position`, lowest first. -/
def siblingsFrom : Nat → Nat → Nat → List Hash → List Hash
  | 0, _, _, _ => []
  | fuel + 1, width, position, level =>
    if 1 < width then
      entry level (position ^^^ 1) ::
        siblingsFrom fuel (width / 2) (position / 2)
          (reduceLevel C width level)
    else []

def buildProof (leaves : List Hash) (index : Nat) : Option Proof :=
  if index < leaves.length then
    let width := nextPowerOfTwo leaves.length
    some
      { index := UInt32.ofNat index
        leafCount := UInt32.ofNat leaves.length
        siblings := siblingsFrom C width width index (padded C leaves) }
  else none

/-- Hash upwards from an entry at `position`. -/
def climb : Hash → Nat → List Hash → Hash
  | current, _, [] => current
  | current, position, sibling :: siblings =>
    climb
      (if position % 2 = 0 then branch C current sibling
        else branch C sibling current)
      (position / 2) siblings

def verify (root leaf : Hash) (proof : Proof) : Bool :=
  if proof.leafCount = 0 ∨ proof.leafCount ≤ proof.index then false
  else
    let target := nextPowerOfTwo proof.leafCount.toNat
    if proof.siblings.length ≠ halvings target target then false
    else climb C leaf proof.index.toNat proof.siblings = root

end ZephyrChain.Merkle
