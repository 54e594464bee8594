/-
The executor's common ground (`internal/v2/execution`): the engine and
the result of a transaction, and the accounting helpers the operations
share.

# Helpers

Each operation spends coins of the sender found among the witnesses and
turns the transaction's output specifications into coins. The loops over
the witnesses differ in the error they report and in the witnesses they
skip (`spendStep`); the loops over the outputs differ in more, and each
has its own step.

An output that stays on the shard becomes an object whose id is derived
from the transaction and the output's index; any other one leaves as an
outbound output.
-/
import ZephyrChain.Tx
import ZephyrChain.Sharding
import ZephyrChain.Contracts

namespace ZephyrChain.Execution

open Lib

structure OutboundOutput where
  destinationShard : UInt32
  outputIndex : UInt32
  output : OutputSpec
  deriving DecidableEq

/-- The receipt of an outbound output, once the block of its transaction
has led to the state `root`. -/
def OutboundOutput.receipt (outbound : OutboundOutput) (shard : UInt32)
    (height : UInt64) (txID root : Hash) : CrossShardReceipt where
  sourceShard := shard
  destinationShard := outbound.destinationShard
  sourceHeight := height
  transactionID := txID
  outputIndex := outbound.outputIndex
  output := outbound.output
  sourceStateRoot := root

structure Result where
  consumed : List ObjectID
  created : List Object
  outbound : List OutboundOutput
  txID : Hash
  deriving DecidableEq

/-- The engine's configuration. A contract engine is looked up by name;
`scriptRuntime` is the interpreter the source falls back to. -/
structure Engine where
  network : NetworkID
  nativeToken : TokenID
  shardCount : UInt32
  height : UInt64
  contractRuntimes : Bytes → Option Runtime
  scriptRuntime : Runtime

def Engine.router (e : Engine) : Router := ⟨e.shardCount⟩

variable (C : Crypto) (e : Engine) (t : Transaction)

-- ==== small pieces

/-- The object the output at `index` becomes on the transaction's
shard. -/
def newObject (index : UInt32) (spec : OutputSpec) : Object :=
  ⟨objectIDForShard C (t.id C) index t.shardID, 1, spec.owner, spec.kind,
    spec.data⟩

/-- The height of a coin is set by the executor, not by the sender. -/
def stampCoinOutput (spec : OutputSpec) (height : UInt64) :
    Except Error OutputSpec := do
  if spec.kind ≠ .coin then return spec
  else
    let coin ← parseCoin spec.data
    return { spec with
      data := { coin with createdHeight := height }.marshalBinary }

def witnessByID (id : ObjectID) : Option Object :=
  t.objects.find? fun o => o.id = id

/-- The only witness of a kind. -/
def witnessByKind (kind : Kind) : Option Object :=
  match t.objects.filter fun o => o.kind = kind with
  | [o] => some o
  | _ => none

-- ==== spending coins

/-- What a loop over the witnesses has gathered. -/
structure Spent where
  total : UInt64
  consumed : List ObjectID

/-- One witness: skipped, or a native coin of the sender. -/
def spendStep (excluded : List ObjectID) (coinError overflowError : Error)
    (s : Spent) (o : Object) : Except Error Spent := do
  if o.id ∈ excluded then return s
  else
    refuse (o.kind ≠ .coin ∨ o.owner ≠ t.sender) .ownership
    let coin ← failWith coinError (parseCoin o.data)
    refuse (coin.token ≠ e.nativeToken) .conservation
    refuse (Overflows s.total coin.amount) overflowError
    return ⟨s.total + coin.amount, s.consumed ++ [o.id]⟩

/-- Spend every witness that is not excluded, on top of `start`. -/
def spendCoins (excluded : List ObjectID) (coinError overflowError : Error)
    (start : UInt64) : Except Error Spent :=
  t.objects.foldlM (spendStep e t excluded coinError overflowError)
    ⟨start, []⟩

-- ==== making outputs

/-- What a loop over the outputs has gathered. -/
structure Change where
  total : UInt64
  created : List Object
  outbound : List OutboundOutput

/-- Keep an output on the shard or send it away. -/
def Change.place (s : Change) (destination : UInt32) (index : Nat)
    (spec : OutputSpec) : Change :=
  let i := UInt32.ofNat index
  if destination = t.shardID then
    { s with created := s.created ++ [newObject C t i spec] }
  else { s with outbound := s.outbound ++ [⟨destination, i, spec⟩] }

/-- One output of `accountNativeValue`. The specification is used as it
is, without a stamp. -/
def nativeOutputStep (s : Change) (out : OutputSpec × Nat) :
    Except Error Change := do
  let (spec, i) := out
  refuse (spec.kind ≠ .coin) .conservation
  let coin ← failWith .conservation (parseCoin spec.data)
  refuse (coin.token ≠ e.nativeToken ∨ Overflows s.total coin.amount)
    .conservation
  let destination ← failWith .shard (e.router.shardForAccount spec.owner)
  return { s with total := s.total + coin.amount }.place C t destination i
    spec

/-- Coins in, coins out: the native value of the spent coins and
`internalIn` covers the outputs, `internalOut` and the fee. -/
def accountNativeValue (excluded : List ObjectID)
    (internalIn internalOut : UInt64) :
    Except Error (List Object × List OutboundOutput × List ObjectID) := do
  let spent ← spendCoins e t excluded .conservation .conservation internalIn
  let change ← t.outputs.zipIdx.foldlM (nativeOutputStep C e t)
    ⟨internalOut, [], []⟩
  refuse (Overflows change.total t.fee) .overflow
  refuse (spent.total ≠ change.total + t.fee) .conservation
  return (change.created, change.outbound, spent.consumed)

/-- One output of `feeOnlyOutputsExcluding`: it stays on the shard. -/
def feeOutputStep (s : Change) (out : OutputSpec × Nat) :
    Except Error Change := do
  let (spec, i) := out
  refuse (spec.kind ≠ .coin) .conservation
  let destination ← failWith .shard (e.router.shardForAccount spec.owner)
  refuse (destination ≠ t.shardID) .shard
  let coin ← failWith .conservation (parseCoin spec.data)
  refuse (coin.token ≠ e.nativeToken) .conservation
  refuse (Overflows s.total coin.amount) .overflow
  let stamped ← stampCoinOutput spec e.height
  return { s with total := s.total + coin.amount }.place C t t.shardID i
    stamped

/-- The witnesses that are not coins. -/
def nonCoin (contractObject : ObjectID) (accesses : List Access) :
    List ObjectID :=
  (if IsZero32 contractObject then [] else [contractObject]) ++
    accesses.map Access.objectID

/-- Coins in and coins out that differ by the fee alone. -/
def feeOnlyOutputsExcluding (contractObject : ObjectID)
    (accesses : List Access) :
    Except Error (List Object × List ObjectID) := do
  let spent ← spendCoins e t (nonCoin contractObject accesses)
    .conservation .overflow 0
  let change ← t.outputs.zipIdx.foldlM (feeOutputStep C e t) ⟨0, [], []⟩
  refuse (Overflows change.total t.fee ∨
    spent.total ≠ change.total + t.fee) .conservation
  return (change.created, spent.consumed)

def feeOnlyOutputs : Except Error (List Object × List ObjectID) :=
  feeOnlyOutputsExcluding C e t Bytes32.zero []

end ZephyrChain.Execution
