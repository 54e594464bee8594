/-
The election of validators of the v1 chain (`internal/dpos/service.go`).

# What is not fixed

The candidates are kept in a map, which the second loop visits in any
order (`MapOrder`). `sort.Slice` is not stable; it promises an order in
which nothing comes before a smaller element, and no more (`Sorting`).

# Numbers

Stakes are 64-bit and every addition is checked. The commission rate is
a float in the source; here it is a value of any linearly ordered type.
-/
import ZephyrChain.Ledger.State
import ZephyrChain.Lib.MapOrder
import ZephyrChain.Lib.SortBy

namespace ZephyrChain.DPoS

open Lib
open Ledger (ElectionConfig normalizeElectionConfig)

inductive ElectionError where
  | stakeOverflow
  deriving DecidableEq

structure Candidate (ρ : Type) where
  address : Bytes
  selfStake : UInt64
  commissionRate : ρ
  missedBlocks : UInt64
  deriving DecidableEq

structure Vote where
  delegator : Bytes
  candidate : Bytes
  amount : UInt64
  deriving DecidableEq

/-- A member of the elected set; `EligibilityNote` is never set. -/
structure Validator (ρ : Type) where
  rank : Nat
  address : Bytes
  votingPower : UInt64
  selfStake : UInt64
  delegatedStake : UInt64
  commissionRate : ρ
  deriving DecidableEq

variable {ρ : Type} [LinearOrder ρ]

/-- The comparison the validators are sorted by. -/
def Validator.Before (v w : Validator ρ) : Prop :=
  if v.votingPower ≠ w.votingPower then w.votingPower < v.votingPower
  else if v.selfStake ≠ w.selfStake then w.selfStake < v.selfStake
  else if v.commissionRate ≠ w.commissionRate then
    v.commissionRate < w.commissionRate
  else v.address < w.address

instance (v w : Validator ρ) : Decidable (v.Before w) := by
  unfold Validator.Before
  infer_instance

/-- The map of the candidates; one without an address is left out. -/
def indexOf (candidates : List (Candidate ρ)) :
    AList fun _ : Bytes => Candidate ρ :=
  candidates.foldl
    (fun index c => if c.address = [] then index
      else index.insert c.address c) ∅

/-- One vote; a candidate nobody has voted for has a stake of zero. -/
def countVote (index : AList fun _ : Bytes => Candidate ρ)
    (delegated : Bytes → UInt64) (vote : Vote) :
    Except ElectionError (Bytes → UInt64) :=
  if vote.candidate = [] ∨ vote.amount = 0 then .ok delegated
  else if vote.candidate ∉ index then .ok delegated
  else do
    let current := delegated vote.candidate
    refuse (Overflows current vote.amount) .stakeOverflow
    return Function.update delegated vote.candidate (current + vote.amount)

/-- The two checks a candidate has to pass. -/
def Eligible (cfg : ElectionConfig) (c : Candidate ρ) : Prop :=
  cfg.minSelfStake ≤ c.selfStake ∧ c.missedBlocks ≤ cfg.maxMissedBlocks

instance (cfg : ElectionConfig) (c : Candidate ρ) :
    Decidable (Eligible cfg c) :=
  inferInstanceAs (Decidable (_ ∧ _))

def Candidate.validator (c : Candidate ρ) (delegated : UInt64) :
    Validator ρ :=
  ⟨0, c.address, c.selfStake + delegated, c.selfStake, delegated,
    c.commissionRate⟩

/-- One entry of the map. -/
def addCandidate (cfg : ElectionConfig) (delegated : Bytes → UInt64)
    (validators : List (Validator ρ))
    (entry : (_ : Bytes) × Candidate ρ) :
    Except ElectionError (List (Validator ρ)) :=
  if ¬ Eligible cfg entry.2 then .ok validators
  else do
    refuse (Overflows entry.2.selfStake (delegated entry.1)) .stakeOverflow
    return validators ++ [entry.2.validator (delegated entry.1)]

def addPower (total : UInt64) (v : Validator ρ) :
    Except ElectionError UInt64 := do
  refuse (Overflows total v.votingPower) .stakeOverflow
  return total + v.votingPower

/-- The last loop. -/
def ranked (validators : List (Validator ρ)) : List (Validator ρ) :=
  validators.mapIdx fun i v => { v with rank := i + 1 }

def electValidators (order : MapOrder)
    (sort : Sorting (Validator.Before (ρ := ρ))) (config : ElectionConfig)
    (candidates : List (Candidate ρ)) (votes : List Vote) :
    Except ElectionError (List (Validator ρ)) := do
  let cfg := normalizeElectionConfig config
  let index := indexOf candidates
  let delegated ← votes.foldlM (countVote index) fun _ => 0
  let validators ← (order.reorder 0 index).entries.foldlM
    (addCandidate cfg delegated) []
  let sorted := sort.run validators
  let elected := sorted.take cfg.maxValidators.toNat
  let _ ← elected.foldlM addPower 0
  return ranked elected

end ZephyrChain.DPoS
