/-
`BatchExecutor.ExecuteBatch` (`internal/v2/execution`, parallel.go) as it
runs: on one worker in order, or on a pool of workers that write into
slots of their own.

What a run may choose is explicit: the order of every loop over a map
(`BatchOrders`), the number of processors, and the interleaving of the
workers' steps.
-/
import ZephyrChain.Execution.MapOrder
import ZephyrChain.Lib.WorkerPool

namespace ZephyrChain.Execution

open Lib

/-- The orders of the map loops: those of the batch check, and those of
each call of `Execute`. -/
structure BatchOrders where
  check : MapOrder
  call : Nat → MapOrder

variable (C : Crypto) (e : Engine) (orders : BatchOrders)
  (procs workers : Int) (txs : List Transaction)

/-- How many workers a batch of `n` transactions gets. -/
def batchWorkers (n : Nat) : Nat :=
  let asked := if workers ≤ 0 then procs else workers
  let capped := if (n : Int) < asked then (n : Int) else asked
  if capped < 1 then 1 else capped.toNat

/-- Go's zero value of a result, what an unwritten slot holds. -/
def zeroResult : Result := ⟨[], [], [], Bytes32.zero⟩

/-- The call of `Execute` for the transaction at an index. -/
def batchCall (i : Nat) : Except Error Result :=
  match txs[i]? with
  | some t => executeIn C (orders.call i) e t
  | none => .ok zeroResult

/-- The pool of a batch. The queue holds one job for each worker. -/
def batchPool : PoolSpec (Except Error Result) where
  jobs := txs.length
  workers := batchWorkers procs workers txs.length
  capacity := batchWorkers procs workers txs.length
  result := batchCall C e orders txs

/-- The first error in the order of the batch, or all results. -/
def collect (slot : Nat → Except Error Result) (n : Nat) :
    Except Error (List Result) :=
  (List.range n).mapM slot

/-- What a call of `ExecuteBatch` may return. -/
inductive BatchReturns : Except Error (List Result) → Prop
  | empty : txs = [] → BatchReturns (.ok [])
  | refused {err : Error} :
      txs ≠ [] → validateIndependentBatchIn C orders.check txs = .error err →
      BatchReturns (.error err)
  | serial : txs ≠ [] →
      validateIndependentBatchIn C orders.check txs = .ok () →
      batchWorkers procs workers txs.length = 1 →
      BatchReturns (collect (batchCall C e orders txs) txs.length)
  | pooled {s : Pool (Except Error Result)} : txs ≠ [] →
      validateIndependentBatchIn C orders.check txs = .ok () →
      batchWorkers procs workers txs.length ≠ 1 →
      Pool.Steps (batchPool C e orders procs workers txs) Pool.start s →
      Pool.Final (batchPool C e orders procs workers txs) s →
      BatchReturns (collect
        (fun i => (s.slots i).getD (.ok zeroResult)) txs.length)

end ZephyrChain.Execution
