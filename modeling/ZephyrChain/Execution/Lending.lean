/-
Lending on one shard (`internal/v2/execution`, extended_lending.go): a
lender locks the principal in an offer, the borrower accepts it against
collateral, and the loan ends by repayment or, after maturity, by default.
-/
import ZephyrChain.Execution.Contracts
import ZephyrChain.Lending

namespace ZephyrChain.Execution

open Lib

variable (C : Crypto) (e : Engine) (t : Transaction)

-- ==== helpers

/-- Lender and borrower have their accounts on one shard. -/
def requireLendingSameShard (terms : Terms) : Except Error Unit := do
  let router : Router := ⟨if e.shardCount = 0 then 1 else e.shardCount⟩
  let lenderShard ← failWith .shard (router.shardForAccount terms.lender)
  let borrowerShard ← failWith .shard (router.shardForAccount terms.borrower)
  refuse (lenderShard ≠ borrowerShard) .shard

/-- The outputs are coins for the sender. -/
def requireLendingChangeOnly : Except Error Unit :=
  refuse (∃ out ∈ t.outputs, out.owner ≠ t.sender ∨ out.kind ≠ .coin)
    .lendingState

/-- A coin the executor pays to an account of this shard. -/
def lendingPayout (owner : AccountID) (amount : UInt64) (index : UInt32) :
    Except Error Object := do
  refuse (amount = 0) .lendingState
  refuse (ownerShard e owner ≠ t.shardID) .shard
  let spec ← newCoinOutputAtHeight owner e.nativeToken amount e.height
  return newObject C t index ⟨owner, .coin, spec.data⟩

/-- A payout of an amount that may be zero. -/
def collateralPayout (owner : AccountID) (amount : UInt64) (index : UInt32) :
    Except Error (List Object) := do
  if 0 < amount then
    let payout ← lendingPayout C e t owner amount index
    return [payout]
  else return []

def addLendingValue (a b : UInt64) : Except Error UInt64 := do
  refuse (Overflows a b) .overflow
  return a + b

/-- The object a lending operation names. -/
def lendingWitness (payload : Bytes) (kind : Kind) : Except Error Object := do
  let id ← parseLendingRef payload
  let o ← require (witnessByID t id) .lendingState
  refuse (o.kind ≠ kind) .lendingState
  return o

-- ==== operations

def executeLoanOffer (payload : Bytes) : Except Error Result := do
  let terms ← failWith .lendingState (parseTerms payload)
  refuse (terms.lender ≠ t.sender) .lendingState
  refuse (0 < e.height ∧ terms.maturityHeight ≤ e.height) .lendingState
  requireLendingSameShard e terms
  requireLendingChangeOnly t
  let (created, outbound, consumed) ←
    accountNativeValue C e t [] 0 terms.principal
  let raw ← terms.marshalBinary
  return ⟨consumed,
    created ++ [newObject C t offerObjectIndex
      ⟨terms.lender, .loanOffer, raw⟩],
    outbound, t.id C⟩

def executeLoanCancel (payload : Bytes) : Except Error Result := do
  let offer ← lendingWitness t payload .loanOffer
  refuse (offer.owner ≠ t.sender) .lendingState
  let terms ← failWith .lendingState (parseTerms offer.data)
  refuse (terms.lender ≠ t.sender) .lendingState
  requireLendingChangeOnly t
  let (created, outbound, consumed) ←
    accountNativeValue C e t [offer.id] terms.principal terms.principal
  let payout ←
    lendingPayout C e t terms.lender terms.principal payoutObjectIndex
  return ⟨consumed ++ [offer.id], created ++ [payout], outbound, t.id C⟩

def executeLoanAccept (payload : Bytes) : Except Error Result := do
  refuse (e.height = 0) .lendingState
  let offer ← lendingWitness t payload .loanOffer
  let terms ← failWith .lendingState (parseTerms offer.data)
  refuse (terms.borrower ≠ t.sender ∨ offer.owner ≠ terms.lender ∨
    terms.maturityHeight ≤ e.height) .lendingState
  requireLendingSameShard e terms
  requireLendingChangeOnly t
  let locked ← addLendingValue terms.principal terms.collateral
  let (created, outbound, consumed) ←
    accountNativeValue C e t [offer.id] terms.principal locked
  let principal ←
    lendingPayout C e t terms.borrower terms.principal payoutObjectIndex
  let raw ← (Loan.mk offer.id terms e.height).marshalBinary
  return ⟨consumed ++ [offer.id],
    created ++ [principal,
      newObject C t loanObjectIndex ⟨terms.borrower, .loan, raw⟩],
    outbound, t.id C⟩

def executeLoanRepay (payload : Bytes) : Except Error Result := do
  let o ← lendingWitness t payload .loan
  refuse (o.owner ≠ t.sender) .lendingState
  let loan ← failWith .lendingState (parseLoan o.data)
  refuse (loan.terms.borrower ≠ t.sender) .lendingState
  requireLendingChangeOnly t
  let due ← loan.terms.repaymentDue
  let settlement ← addLendingValue due loan.terms.collateral
  let (created, outbound, consumed) ←
    accountNativeValue C e t [o.id] loan.terms.collateral settlement
  let lenderPayout ←
    lendingPayout C e t loan.terms.lender due payoutObjectIndex
  let collateral ← collateralPayout C e t loan.terms.borrower
    loan.terms.collateral (payoutObjectIndex + 1)
  return ⟨consumed ++ [o.id], created ++ lenderPayout :: collateral,
    outbound, t.id C⟩

def executeLoanDefault (payload : Bytes) : Except Error Result := do
  refuse (e.height = 0) .lendingState
  let o ← lendingWitness t payload .loan
  let loan ← failWith .lendingState (parseLoan o.data)
  refuse (loan.terms.lender ≠ t.sender ∨
    e.height ≤ loan.terms.maturityHeight) .lendingState
  requireLendingChangeOnly t
  let (created, outbound, consumed) ← accountNativeValue C e t [o.id]
    loan.terms.collateral loan.terms.collateral
  let collateral ← collateralPayout C e t loan.terms.lender
    loan.terms.collateral payoutObjectIndex
  return ⟨consumed ++ [o.id], created ++ collateral, outbound, t.id C⟩

def executeLending (op : Operation) : Except Error Result :=
  if op.kind = Op.loanOffer then executeLoanOffer C e t op.payload
  else if op.kind = Op.loanCancel then executeLoanCancel C e t op.payload
  else if op.kind = Op.loanAccept then executeLoanAccept C e t op.payload
  else if op.kind = Op.loanRepay then executeLoanRepay C e t op.payload
  else if op.kind = Op.loanDefault then executeLoanDefault C e t op.payload
  else throw .unsupportedOperation

end ZephyrChain.Execution
