/-
The reference performance of a compute unit
(`internal/v2/economics/zcu_reference.go`). Each class's reference is a
weighted median of what its slots delivered, averaged with the reference
of the epoch before and kept within a step of it.
-/
import ZephyrChain.Economics.ComputeMarket
import Mathlib.Algebra.Ring.Nat
import Mathlib.Data.Prod.Lex

namespace ZephyrChain.Economics

open Lib

structure VerifiedComputeSlot where
  workClass : UInt8
  performanceQ9 : UInt64
  deliveredSlotTime : UInt64
  availabilityEWMABps : UInt32
  successEWMABps : UInt32
  confidenceBps : UInt32
  deriving DecidableEq

structure ZCUReferenceConfig where
  minSlotsPerClass : UInt32
  ewmaBps : UInt32
  maxEpochChangeBps : UInt32
  deriving DecidableEq

structure ZCUReferenceSnapshot where
  epoch : UInt64
  classReferenceQ9 : Vector UInt64 12
  classSlots : Vector UInt32 12
  classWeight : Vector UInt64 12
  classReliable : Vector Bool 12
  deriving DecidableEq

/-- The zero value, which stands for no reference before the first
epoch. -/
def ZCUReferenceSnapshot.none : ZCUReferenceSnapshot :=
  ⟨0, Vector.replicate 12 0, Vector.replicate 12 0, Vector.replicate 12 0,
    Vector.replicate 12 false⟩

structure WeightedSlot where
  performance : UInt64
  weight : UInt64
  deriving DecidableEq

/-- Slots are sorted by performance, then by weight. -/
def WeightedSlot.key (s : WeightedSlot) : Nat ×ₗ Nat :=
  toLex (s.performance.toNat, s.weight.toNat)

def sortSlots (slots : List WeightedSlot) : List WeightedSlot :=
  slots.insertionSort fun a b => a.key ≤ b.key

/-- The time a slot delivered, cut down by each of its three factors. -/
def VerifiedComputeSlot.effective (slot : VerifiedComputeSlot) : Nat :=
  [slot.availabilityEWMABps, slot.successEWMABps, slot.confidenceBps].foldl
    (fun value factor => value * factor.toNat / 10000)
    slot.deliveredSlotTime.toNat

def effectiveSlotWeight (slot : VerifiedComputeSlot) :
    Except Error UInt64 := do
  refuse (2 ^ 64 ≤ slot.effective) .zcuReference
  return UInt64.ofNat slot.effective

/-- A slot that is checked and weighed, with its class. -/
def weighSlot (slot : VerifiedComputeSlot) :
    Except Error (UInt8 × WeightedSlot) := do
  refuse (slot.workClass = 0 ∨ workClassCount ≤ slot.workClass.toNat ∨
    slot.performanceQ9 = 0 ∨ slot.deliveredSlotTime = 0 ∨
    basisPoints < slot.availabilityEWMABps ∨
    basisPoints < slot.successEWMABps ∨ basisPoints < slot.confidenceBps)
    .zcuReference
  let weight ← effectiveSlotWeight slot
  return (slot.workClass, ⟨slot.performanceQ9, weight⟩)

/-- The loop that stops at the slot where half of the weight is reached. -/
def medianWalk (threshold : UInt64) : List WeightedSlot → UInt64 →
    Except Error UInt64
  | [], _ => .error .zcuReference
  | slot :: slots, cumulative => do
      refuse (Overflows cumulative slot.weight) .zcuReference
      if threshold ≤ cumulative + slot.weight then return slot.performance
      medianWalk threshold slots (cumulative + slot.weight)

def weightedMedianSlot (slots : List WeightedSlot) :
    Except Error (UInt64 × UInt64) := do
  refuse (slots = []) .zcuReference
  refuse (∃ s ∈ slots, s.performance = 0 ∨ s.weight = 0) .zcuReference
  let total := (slots.map fun s => s.weight.toNat).sum
  refuse (2 ^ 64 ≤ total ∨ total = 0) .zcuReference
  let totalWeight := UInt64.ofNat total
  let threshold := totalWeight / 2 + totalWeight % 2
  let median ← medianWalk threshold slots 0
  return (median, totalWeight)

def rateLimitQ9 (prior next : UInt64) (maxChangeBps : UInt32) :
    Except Error UInt64 := do
  if prior = 0 ∨ maxChangeBps = 0 ∨ prior = next then return next
  let upper := prior.toNat * (basisPoints + maxChangeBps).toNat / 10000
  let lower := prior.toNat * (basisPoints - maxChangeBps).toNat / 10000
  refuse (2 ^ 64 ≤ upper ∨ 2 ^ 64 ≤ lower) .zcuReference
  return if upper < next.toNat then UInt64.ofNat upper
    else if next.toNat < lower then UInt64.ofNat lower
    else next

/-- One class of the snapshot. -/
def addReference (cfg : ZCUReferenceConfig) (prior : ZCUReferenceSnapshot)
    (weighed : List (UInt8 × WeightedSlot)) (out : ZCUReferenceSnapshot)
    (k : Fin 12) : Except Error ZCUReferenceSnapshot := do
  let slots := (weighed.filter fun p =>
    p.1.toNat = k.val ∧ p.2.weight ≠ 0).map (·.2)
  let count := UInt32.ofNat slots.length
  let counted := { out with classSlots := setClass out.classSlots k count }
  if slots = [] then return counted
  let (median, totalWeight) ← weightedMedianSlot (sortSlots slots)
  let measured := { counted with
    classWeight := setClass counted.classWeight k totalWeight }
  if count < cfg.minSlotsPerClass then return measured
  let average ← ewma (prior.classReferenceQ9.get k) median cfg.ewmaBps
  let reference ← rateLimitQ9 (prior.classReferenceQ9.get k) average
    cfg.maxEpochChangeBps
  return { measured with
    classReferenceQ9 := setClass measured.classReferenceQ9 k reference
    classReliable := setClass measured.classReliable k (reference ≠ 0) }

def buildZCUReference (epoch : UInt64) (slots : List VerifiedComputeSlot)
    (prior : ZCUReferenceSnapshot) (cfg : ZCUReferenceConfig) :
    Except Error ZCUReferenceSnapshot := do
  refuse (epoch = 0 ∨ cfg.minSlotsPerClass = 0 ∨
    basisPoints < cfg.ewmaBps ∨ basisPoints < cfg.maxEpochChangeBps)
    .zcuReference
  refuse (prior.epoch ≠ 0 ∧ epoch ≤ prior.epoch) .zcuReference
  let weighed ← slots.mapM weighSlot
  workClasses.foldlM (addReference cfg prior weighed)
    { ZCUReferenceSnapshot.none with epoch := epoch }

/-- A run in which each call gets the snapshot of the call before it. -/
def zcuReferences (cfg : ZCUReferenceConfig) :
    ZCUReferenceSnapshot → List (UInt64 × List VerifiedComputeSlot) →
      Except Error (List ZCUReferenceSnapshot)
  | _, [] => .ok []
  | prior, (epoch, slots) :: inputs => do
      let snapshot ← buildZCUReference epoch slots prior cfg
      let rest ← zcuReferences cfg snapshot inputs
      return snapshot :: rest

end ZephyrChain.Economics
