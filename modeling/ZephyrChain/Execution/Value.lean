/-
What the objects of a transaction hold: the amount of a token in a coin,
the escrow and collateral locked in a job record, and what a loan locks
or carries to another shard, as unbounded numbers. The abstract side of
the accounting: the executor itself never computes them.
-/
import ZephyrChain.Execution.Execute

namespace ZephyrChain

/-- The part of an object, or of an output, that holds value. -/
abbrev Payload := Kind × Bytes

def Object.payload (o : Object) : Payload := (o.kind, o.data)

namespace Execution

def OutboundOutput.payload (out : OutboundOutput) : Payload :=
  (out.output.kind, out.output.data)

/-- A result that parsed, and zero for one that did not. -/
def amountOf {α : Type} (x : Except Error α) (f : α → Nat) : Nat :=
  match x with
  | .ok a => f a
  | .error _ => 0

/-- The amount of a token in a coin. -/
def coinAmount (token : TokenID) (p : Payload) : Nat :=
  match p with
  | (.coin, data) =>
    amountOf (parseCoin data) fun c =>
      if c.token = token then c.amount.toNat else 0
  | _ => 0

/-- What an object or a message of a loan holds: the principal is locked
in the offer, the collateral in the loan or in the acceptance, and a
repayment carries its amount. -/
def lentValue (token : TokenID) (p : Payload) : Nat :=
  match p with
  | (.loanOffer, data) =>
    amountOf (parseTerms data) fun t => t.principal.toNat
  | (.loan, data) =>
    amountOf (parseLoan data) fun l => l.terms.collateral.toNat
  | (.crossLoanOffer, data) =>
    amountOf (parseCrossOffer data) fun m => m.terms.principal.toNat
  | (.crossLoanAcceptance, data) =>
    amountOf (parseCrossAcceptance data) fun m => m.terms.collateral.toNat
  | (.crossLoanRepayment, data) =>
    amountOf (parseCrossRepayment data) fun m => m.amount.toNat
  | _ => coinAmount token p

/-- Escrow and the collateral of every assignment. -/
def lockedInJob (j : OnChainJob) : Nat :=
  j.escrow.toNat + j.assignments.length * j.job.collateralRequired.toNat

/-- The sum of a measure over a list of payloads. -/
def sumOf (f : Payload → Nat) (ps : List Payload) : Nat := (ps.map f).sum

/-- What a result leaves behind: created objects and outbound outputs. -/
def Result.produced (r : Result) : List Payload :=
  r.created.map Object.payload ++ r.outbound.map OutboundOutput.payload

end Execution

end ZephyrChain
