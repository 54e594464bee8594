/-
The price index ZCPI over verified compute work
(`internal/v2/economics/compute_index.go`). Prices are 64-bit and formed
with `big.Int`.
-/
import ZephyrChain.Economics

namespace ZephyrChain.Economics

open Lib

/-- `compute.WorkClassCount`; the classes themselves are 1 to 11. -/
def workClassCount : Nat := 12

def priceScaleQ9 : Nat := 1000000000

/-- A settled job's normalized work, as far as the index reads it. -/
structure VerifiedWork where
  workClass : UInt8
  units : UInt64
  paidZPH : UInt64
  deriving DecidableEq

structure ComputeIndexConfig where
  weightsBps : Vector UInt32 12
  minSamplesPerClass : UInt32
  minCoverageBps : UInt32
  ewmaBps : UInt32
  deriving DecidableEq

structure ComputeIndexSnapshot where
  epoch : UInt64
  classPriceQ9 : Vector UInt64 12
  classSamples : Vector UInt64 12
  basketPriceQ9 : UInt64
  coverageBps : UInt32
  reliable : Bool
  totalSamples : UInt64
  deriving DecidableEq

/-- The zero value, which stands for no index before the first epoch. -/
def ComputeIndexSnapshot.none : ComputeIndexSnapshot :=
  ⟨0, Vector.replicate 12 0, Vector.replicate 12 0, 0, 0, false, 0⟩

-- ==== the index

def scaledRatio (value divisor : UInt64) : Except Error UInt64 := do
  refuse (divisor = 0) .computeIndex
  let price := value.toNat * priceScaleQ9 / divisor.toNat
  refuse (2 ^ 64 ≤ price) .computeIndex
  return UInt64.ofNat price

/-- The price of one observation, with its class. -/
def pricedWork (w : VerifiedWork) : Except Error (UInt8 × UInt64) := do
  refuse (w.workClass = 0 ∨ workClassCount ≤ w.workClass.toNat ∨
    w.units = 0 ∨ w.paidZPH = 0) .computeIndex
  let price ← scaledRatio w.paidZPH w.units
  return (w.workClass, price)

/-- The middle of a sorted list, or half way between its two middles. -/
def medianUint64 (values : List UInt64) : UInt64 :=
  let middle := values.length / 2
  if values.length % 2 = 1 then values.getD middle 0
  else
    let low := values.getD (middle - 1) 0
    let high := values.getD middle 0
    low + (high - low) / 2

def ewma (prior current : UInt64) (alphaBps : UInt32) :
    Except Error UInt64 := do
  if prior = 0 ∨ alphaBps = basisPoints then return current
  if alphaBps = 0 then return prior
  let value := (prior.toNat * (basisPoints - alphaBps).toNat +
    current.toNat * alphaBps.toNat) / 10000
  refuse (2 ^ 64 ≤ value) .computeIndex
  return UInt64.ofNat value

/-- What the loop over the classes has put together. -/
structure Basket where
  snapshot : ComputeIndexSnapshot
  basket : Nat
  activeWeight : UInt64

/-- One class: its samples count, and its price enters the basket once
there are enough of them. -/
def addClass (cfg : ComputeIndexConfig) (prior : ComputeIndexSnapshot)
    (prices : List (UInt8 × UInt64)) (b : Basket) (k : Fin 12) :
    Except Error Basket := do
  let classPrices := (prices.filter fun p => p.1.toNat = k.val).map (·.2)
  let samples := UInt64.ofNat classPrices.length
  let counted := { b.snapshot with
    classSamples := b.snapshot.classSamples.set k samples
    totalSamples := b.snapshot.totalSamples + samples }
  if UInt32.ofNat classPrices.length < cfg.minSamplesPerClass ∨
      cfg.weightsBps.get k = 0 then
    return { b with snapshot := counted }
  let median := medianUint64 (classPrices.insertionSort (· ≤ ·))
  let current ← ewma (prior.classPriceQ9.get k) median cfg.ewmaBps
  let weight := cfg.weightsBps.get k
  return {
    snapshot := { counted with
      classPriceQ9 := counted.classPriceQ9.set k current }
    basket := b.basket + current.toNat * weight.toNat
    activeWeight := b.activeWeight + weight.toUInt64 }

/-- A table by class, with one entry replaced. -/
abbrev setClass {α : Type} (table : Vector α 12) (k : Fin 12) (x : α) :
    Vector α 12 :=
  table.set k x

/-- `for class := 1; class < WorkClassCount; class++`. -/
def workClasses : List (Fin 12) := [1, 2, 3, 4, 5, 6, 7, 8, 9, 10, 11]

def totalWeightOf (cfg : ComputeIndexConfig) : UInt64 :=
  workClasses.foldl (fun total k => total + (cfg.weightsBps.get k).toUInt64)
    0

def buildComputeIndex (epoch : UInt64) (observations : List VerifiedWork)
    (prior : ComputeIndexSnapshot) (cfg : ComputeIndexConfig) :
    Except Error ComputeIndexSnapshot := do
  refuse (epoch = 0 ∨ cfg.minSamplesPerClass = 0 ∨
    basisPoints < cfg.minCoverageBps ∨ basisPoints < cfg.ewmaBps)
    .computeIndex
  refuse (totalWeightOf cfg = 0) .computeIndex
  let prices ← observations.mapM pricedWork
  let b ← workClasses.foldlM (addClass cfg prior prices)
    ⟨{ ComputeIndexSnapshot.none with epoch := epoch }, 0, 0⟩
  if b.activeWeight = 0 then return b.snapshot
  let price := b.basket / b.activeWeight.toNat
  refuse (2 ^ 64 ≤ price) .computeIndex
  let coverage := b.activeWeight * 10000 / totalWeightOf cfg
  let coverageBps := if 10000 < coverage then basisPoints
    else coverage.toUInt32
  return { b.snapshot with
    basketPriceQ9 := UInt64.ofNat price
    coverageBps := coverageBps
    reliable := decide (cfg.minCoverageBps ≤ coverageBps) }

end ZephyrChain.Economics
