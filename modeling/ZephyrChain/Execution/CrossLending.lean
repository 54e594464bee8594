/-
Lending across two shards (`internal/v2/execution`,
extended_cross_lending.go). The principal travels to the borrower's shard
inside the offer, the collateral to the lender's shard inside the
acceptance, and the repayment follows it there. Offers and acceptances
that are never answered can be unwound after a grace period.
-/
import ZephyrChain.Execution.Lending

namespace ZephyrChain.Execution

open Lib

variable (C : Crypto) (e : Engine) (t : Transaction)

/-- The shards of lender and borrower, which must differ. -/
def crossLendingShards (terms : Terms) : Except Error (UInt32 × UInt32) := do
  refuse (e.shardCount < 2) .shard
  let lenderShard := accountShard terms.lender e.shardCount
  let borrowerShard := accountShard terms.borrower e.shardCount
  refuse (lenderShard = borrowerShard) .shard
  return (lenderShard, borrowerShard)

/-- The grace period behind maturity has not passed yet. -/
def withinGrace (terms : Terms) : Prop :=
  Overflows terms.maturityHeight crossShardSettlementGraceBlocks ∨
    e.height ≤ terms.maturityHeight + crossShardSettlementGraceBlocks

instance (terms : Terms) : Decidable (withinGrace e terms) :=
  inferInstanceAs (Decidable (_ ∨ _))

def executeCrossLoanOffer (payload : Bytes) : Except Error Result := do
  refuse (e.height = 0) .lendingState
  let terms ← failWith .lendingState (parseTerms payload)
  refuse (terms.lender ≠ t.sender ∨ terms.maturityHeight ≤ e.height ∨
    Overflows terms.maturityHeight crossShardSettlementGraceBlocks)
    .lendingState
  let (lenderShard, borrowerShard) ←
    failWith .shard (crossLendingShards e terms)
  refuse (lenderShard ≠ t.shardID ∨ lenderShard = borrowerShard) .shard
  requireLendingChangeOnly t
  let (created, outbound, consumed) ←
    accountNativeValue C e t [] 0 terms.principal
  let offerID :=
    objectIDForShard C (t.id C) crossOfferMessageIndex borrowerShard
  let raw ← (CrossOffer.mk offerID lenderShard borrowerShard e.height
    terms).marshalBinary
  return ⟨consumed, created,
    outbound ++ [⟨borrowerShard, crossOfferMessageIndex,
      ⟨terms.borrower, .crossLoanOffer, raw⟩⟩],
    t.id C⟩

def executeCrossLoanAccept (payload : Bytes) : Except Error Result := do
  refuse (e.height = 0) .lendingState
  let o ← lendingWitness t payload .crossLoanOffer
  refuse (o.owner ≠ t.sender) .lendingState
  let offer ← failWith .lendingState (parseCrossOffer o.data)
  refuse (offer.offerObject ≠ o.id ∨ offer.terms.borrower ≠ t.sender ∨
    offer.terms.maturityHeight ≤ e.height) .lendingState
  let (lenderShard, borrowerShard) ←
    failWith .shard (crossLendingShards e offer.terms)
  refuse (lenderShard ≠ offer.lenderShard ∨
    borrowerShard ≠ offer.borrowerShard ∨ borrowerShard ≠ t.shardID ∨
    lenderShard = borrowerShard) .shard
  requireLendingChangeOnly t
  let internalOut ←
    addLendingValue offer.terms.principal offer.terms.collateral
  let (created, outbound, consumed) ← accountNativeValue C e t [o.id]
    offer.terms.principal internalOut
  let activationID :=
    objectIDForShard C (t.id C) crossActivationObjectIndex borrowerShard
  let acceptanceID :=
    objectIDForShard C (t.id C) crossAcceptanceMessageIndex lenderShard
  let acceptanceRaw ← (CrossAcceptance.mk offer.offerObject activationID
    lenderShard borrowerShard e.height offer.terms).marshalBinary
  let activationRaw ← (CrossActivation.mk acceptanceID lenderShard
    borrowerShard e.height offer.terms).marshalBinary
  let principal ← lendingPayout C e t offer.terms.borrower
    offer.terms.principal crossPrincipalObjectIndex
  let activation : Object :=
    ⟨activationID, 1, offer.terms.borrower, .crossLoanActivation,
      activationRaw⟩
  return ⟨consumed ++ [o.id], created ++ [principal, activation],
    outbound ++ [⟨lenderShard, crossAcceptanceMessageIndex,
      ⟨offer.terms.lender, .crossLoanAcceptance, acceptanceRaw⟩⟩],
    t.id C⟩

def executeCrossLoanRepay (payload : Bytes) : Except Error Result := do
  refuse (e.height = 0) .lendingState
  let o ← lendingWitness t payload .crossLoanActivation
  refuse (o.owner ≠ t.sender) .lendingState
  let activation ← failWith .lendingState (parseCrossActivation o.data)
  refuse (activation.terms.borrower ≠ t.sender ∨
    activation.terms.maturityHeight < e.height) .lendingState
  let (lenderShard, borrowerShard) ←
    failWith .shard (crossLendingShards e activation.terms)
  refuse (lenderShard ≠ activation.lenderShard ∨
    borrowerShard ≠ activation.borrowerShard ∨ borrowerShard ≠ t.shardID ∨
    lenderShard = borrowerShard) .shard
  let due ← activation.terms.repaymentDue
  requireLendingChangeOnly t
  let (created, outbound, consumed) ← accountNativeValue C e t [o.id] 0 due
  let termsHash ← activation.terms.hash C
  let raw ← (CrossRepayment.mk activation.acceptanceObject o.id lenderShard
    borrowerShard due e.height termsHash).marshalBinary
  return ⟨consumed ++ [o.id], created,
    outbound ++ [⟨lenderShard, crossRepaymentMessageIndex,
      ⟨activation.terms.lender, .crossLoanRepayment, raw⟩⟩],
    t.id C⟩

/-- A coin that goes back to the other shard. -/
def returnedCoin (shard : UInt32) (index : UInt32) (owner : AccountID)
    (amount : UInt64) : Except Error OutboundOutput := do
  let spec ← newCoinOutputAtHeight owner e.nativeToken amount e.height
  return ⟨shard, index, spec⟩

/-- The collateral that goes back, if there is any. -/
def returnedCollateral (shard : UInt32) (index : UInt32) (owner : AccountID)
    (amount : UInt64) : Except Error (List OutboundOutput) := do
  if 0 < amount then
    let coin ← returnedCoin e shard index owner amount
    return [coin]
  else return []

def executeCrossLoanSettle : Except Error Result := do
  let a ← require (witnessByKind t .crossLoanAcceptance) .lendingState
  let r ← require (witnessByKind t .crossLoanRepayment) .lendingState
  let acceptance ← failWith .lendingState (parseCrossAcceptance a.data)
  refuse (a.owner ≠ acceptance.terms.lender) .lendingState
  let repayment ← failWith .lendingState (parseCrossRepayment r.data)
  refuse (r.owner ≠ acceptance.terms.lender) .lendingState
  let (lenderShard, borrowerShard) ←
    failWith .shard (crossLendingShards e acceptance.terms)
  refuse (lenderShard ≠ t.shardID ∨ lenderShard ≠ acceptance.lenderShard ∨
    borrowerShard ≠ acceptance.borrowerShard ∨
    lenderShard = borrowerShard) .shard
  let due ← acceptance.terms.repaymentDue
  let termsHash ← acceptance.terms.hash C
  refuse (repayment.acceptanceObject ≠ a.id ∨
    repayment.activationObject ≠ acceptance.activationObject ∨
    repayment.lenderShard ≠ lenderShard ∨
    repayment.borrowerShard ≠ borrowerShard ∨ repayment.amount ≠ due ∨
    acceptance.terms.maturityHeight < repayment.paidHeight ∨
    repayment.termsHash ≠ termsHash) .lendingState
  requireLendingChangeOnly t
  let internal ← addLendingValue acceptance.terms.collateral due
  let (created, outbound, consumed) ←
    accountNativeValue C e t [a.id, r.id] internal internal
  let lenderPayout ←
    lendingPayout C e t acceptance.terms.lender due payoutObjectIndex
  let returned ← returnedCollateral e borrowerShard
    crossCollateralReturnIndex acceptance.terms.borrower
    acceptance.terms.collateral
  return ⟨consumed ++ [a.id, r.id], created ++ [lenderPayout],
    outbound ++ returned, t.id C⟩

def executeCrossLoanDefault (payload : Bytes) : Except Error Result := do
  let o ← lendingWitness t payload .crossLoanAcceptance
  refuse (o.owner ≠ t.sender) .lendingState
  let acceptance ← failWith .lendingState (parseCrossAcceptance o.data)
  refuse (acceptance.terms.lender ≠ t.sender ∨
    withinGrace e acceptance.terms) .lendingState
  let (lenderShard, borrowerShard) ←
    failWith .shard (crossLendingShards e acceptance.terms)
  refuse (lenderShard ≠ t.shardID ∨ lenderShard ≠ acceptance.lenderShard ∨
    borrowerShard ≠ acceptance.borrowerShard) .shard
  requireLendingChangeOnly t
  let (created, outbound, consumed) ← accountNativeValue C e t [o.id]
    acceptance.terms.collateral acceptance.terms.collateral
  let collateral ← collateralPayout C e t acceptance.terms.lender
    acceptance.terms.collateral payoutObjectIndex
  return ⟨consumed ++ [o.id], created ++ collateral, outbound, t.id C⟩

def executeCrossLoanExpire (payload : Bytes) : Except Error Result := do
  let o ← lendingWitness t payload .crossLoanOffer
  let offer ← failWith .lendingState (parseCrossOffer o.data)
  refuse (withinGrace e offer.terms) .lendingState
  let (lenderShard, borrowerShard) ←
    failWith .shard (crossLendingShards e offer.terms)
  refuse (borrowerShard ≠ t.shardID ∨ lenderShard ≠ offer.lenderShard ∨
    borrowerShard ≠ offer.borrowerShard) .shard
  requireLendingChangeOnly t
  let (created, outbound, consumed) ← accountNativeValue C e t [o.id]
    offer.terms.principal offer.terms.principal
  let coin ← returnedCoin e lenderShard crossPrincipalReturnIndex
    offer.terms.lender offer.terms.principal
  return ⟨consumed ++ [o.id], created, outbound ++ [coin], t.id C⟩

def executeCrossShardLending (op : Operation) : Except Error Result :=
  if op.kind = Op.crossLoanOffer then executeCrossLoanOffer C e t op.payload
  else if op.kind = Op.crossLoanAccept then
    executeCrossLoanAccept C e t op.payload
  else if op.kind = Op.crossLoanRepay then
    executeCrossLoanRepay C e t op.payload
  else if op.kind = Op.crossLoanSettle then executeCrossLoanSettle C e t
  else if op.kind = Op.crossLoanDefault then
    executeCrossLoanDefault C e t op.payload
  else if op.kind = Op.crossLoanExpire then
    executeCrossLoanExpire C e t op.payload
  else throw .unsupportedOperation

end ZephyrChain.Execution
