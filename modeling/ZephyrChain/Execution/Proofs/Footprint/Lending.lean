/-
The footprints of the lending operations, on one shard and across two.
They take at most the offer, the loan or the messages they name, and
leave coins and records of fixed size, so what they leave can always be
stored.

# Worth

`Lends` says at the same time what the objects are worth: what an
operation takes out of a loan, and what it leaves in one, are the two
amounts it has `accountNativeValue` add to its coins.
-/
import ZephyrChain.Execution.Proofs.Footprint.Basic

namespace ZephyrChain.Execution

open Lib

variable {C : Crypto} {e : Engine} {t : Transaction} {payload : Bytes}
  {r : Result}

-- ==== witnesses

theorem lendingWitness_eq_ok {kind : Kind} {o : Object}
    (h : lendingWitness t payload kind = .ok o) :
    o ∈ t.objects ∧ o.kind = kind := by
  simp only [lendingWitness, ok_iff, not_not] at h
  obtain ⟨id, _, o', hfind, hk, rfl⟩ := h
  exact ⟨(mem_of_witnessByID hfind).1, hk⟩

-- ==== outputs

/-- A well-formed output of a value. -/
structure Worth (token : TokenID) (spec : OutputSpec) (n : Nat) : Prop where
  valid : spec.validate = .ok ()
  value : lentValue token (spec.kind, spec.data) = n

variable {terms : Terms} {raw : Bytes} {token : TokenID}

theorem Terms.owners (h : terms.validate = .ok ()) :
    terms.lender ≠ Bytes32.zero ∧ terms.borrower ≠ Bytes32.zero := by
  simp only [Terms.validate, ok_iff, not_or] at h
  exact ⟨h.1.1, h.1.2.1⟩

theorem Terms.worth (h : terms.marshalBinary = .ok raw) :
    Worth token ⟨terms.lender, .loanOffer, raw⟩ terms.principal.toNat := by
  have hparse := parseTerms_marshalBinary h
  simp only [Terms.marshalBinary, ok_iff] at h
  obtain ⟨h, rfl⟩ := h
  exact ⟨validate_spec (by decide) (Terms.owners h).1 (by simp),
    by simp [lentValue, hparse, amountOf]⟩

theorem Loan.worth {l : Loan} (h : l.marshalBinary = .ok raw) :
    Worth token ⟨l.terms.borrower, .loan, raw⟩
      l.terms.collateral.toNat := by
  obtain ⟨hparse, hterms⟩ := parseLoan_marshalBinary h
  simp only [Loan.marshalBinary, ok_iff] at h
  obtain ⟨_, rfl⟩ := h
  exact ⟨validate_spec (by decide) (Terms.owners hterms).2
    (by simp [Loan.encode]), by simp [lentValue, hparse, amountOf]⟩

theorem CrossOffer.worth {m : CrossOffer} (h : m.marshalBinary = .ok raw) :
    Worth token ⟨m.terms.borrower, .crossLoanOffer, raw⟩
      m.terms.principal.toNat := by
  obtain ⟨hparse, hterms⟩ := parseCrossOffer_marshalBinary h
  simp only [CrossOffer.marshalBinary, ok_iff] at h
  obtain ⟨_, rfl⟩ := h
  exact ⟨validate_spec (by decide) (Terms.owners hterms).2
    (by simp [CrossOffer.encode]), by simp [lentValue, hparse, amountOf]⟩

theorem CrossAcceptance.worth {m : CrossAcceptance}
    (h : m.marshalBinary = .ok raw) :
    Worth token ⟨m.terms.lender, .crossLoanAcceptance, raw⟩
      m.terms.collateral.toNat := by
  obtain ⟨hparse, hterms⟩ := parseCrossAcceptance_marshalBinary h
  simp only [CrossAcceptance.marshalBinary, ok_iff] at h
  obtain ⟨_, rfl⟩ := h
  exact ⟨validate_spec (by decide) (Terms.owners hterms).1
    (by simp [CrossAcceptance.encode]), by simp [lentValue, hparse, amountOf]⟩

theorem CrossActivation.worth {m : CrossActivation}
    (h : m.marshalBinary = .ok raw) :
    Worth token ⟨m.terms.borrower, .crossLoanActivation, raw⟩ 0 := by
  simp only [CrossActivation.marshalBinary, CrossActivation.validate,
    ok_iff] at h
  obtain ⟨⟨_, h⟩, rfl⟩ := h
  exact ⟨validate_spec (by decide) (Terms.owners h).2
    (by simp [CrossActivation.encode]), rfl⟩

theorem CrossRepayment.worth {m : CrossRepayment} {owner : AccountID}
    (howner : owner ≠ Bytes32.zero) (h : m.marshalBinary = .ok raw) :
    Worth token ⟨owner, .crossLoanRepayment, raw⟩ m.amount.toNat := by
  have hparse := parseCrossRepayment_marshalBinary h
  simp only [CrossRepayment.marshalBinary, ok_iff] at h
  obtain ⟨_, rfl⟩ := h
  exact ⟨validate_spec (by decide) howner (by simp [CrossRepayment.encode]),
    by simp [lentValue, hparse, amountOf]⟩

variable {owner : AccountID} {amount : UInt64}

theorem newCoinOutputAtHeight_valid {height : UInt64} {spec : OutputSpec}
    (h : newCoinOutputAtHeight owner token amount height = .ok spec) :
    spec.validate = .ok () := by
  simp only [newCoinOutputAtHeight, ok_iff, not_or] at h
  obtain ⟨⟨howner, _, _⟩, _, rfl⟩ := h
  exact validate_spec (by decide) howner (by simp [Coin.marshalBinary])

theorem newCoinOutputAtHeight_worth {height : UInt64} {spec : OutputSpec}
    (h : newCoinOutputAtHeight owner token amount height = .ok spec) :
    Worth token spec amount.toNat := by
  refine ⟨newCoinOutputAtHeight_valid h, ?_⟩
  obtain ⟨_, hk, hc⟩ := newCoinOutputAtHeight_eq_ok h
  rw [hk]
  exact coinAmount_eq (p := (.coin, spec.data)) rfl hc

-- ==== objects and messages

/-- New objects that together have a value. -/
structure Brings (token : TokenID) (items : List Item)
    (indices : List UInt32) (n : Nat) : Prop where
  adds : Adds items indices
  value : ∀ (C : Crypto) (t : Transaction), sumOf (lentValue token)
    ((items.map (Item.object C t)).map Object.payload) = n

variable {items : List Item} {indices : List UInt32} {spec : OutputSpec}
  {n k : Nat}

theorem brings_nil (h : Adds [] indices) : Brings token [] indices 0 :=
  ⟨h, fun _ _ => rfl⟩

theorem Brings.cons (h : Brings token items indices n)
    (hs : Worth token spec k) (index : UInt32) :
    Brings token (.fresh index spec :: items) (index :: indices) (k + n) := by
  refine ⟨h.adds.cons hs.valid index, fun C t => ?_⟩
  rw [List.map_cons, List.map_cons, sumOf_cons, h.value C t]
  exact congrArg (· + n) hs.value

theorem Brings.single (hs : Worth token spec k) (index : UInt32) :
    Brings token [.fresh index spec] [index] k :=
  (brings_nil adds_nil).cons hs index

/-- Messages to other shards that together have a value. -/
structure Sends (token : TokenID) (t : Transaction)
    (messages : List OutboundOutput) (n : Nat) : Prop where
  valid : ∀ m ∈ messages, m.output.validate = .ok () ∧
    m.destinationShard ≠ t.shardID
  value : sumOf (lentValue token)
    (messages.map OutboundOutput.payload) = n

theorem sends_nil : Sends token t [] 0 := ⟨by simp, rfl⟩

variable {shard : UInt32}

theorem Sends.single (hs : Worth token spec k) (hshard : shard ≠ t.shardID)
    (index : UInt32) : Sends token t [⟨shard, index, spec⟩] k :=
  ⟨List.forall_mem_singleton.2 ⟨hs.valid, hshard⟩, hs.value⟩

-- ==== payouts

variable {index : UInt32}

theorem lendingPayout_worth {o : Object}
    (h : lendingPayout C e t owner amount index = .ok o) :
    ∃ spec, o = newObject C t index spec ∧
      Worth e.nativeToken spec amount.toNat := by
  simp only [lendingPayout, ok_iff] at h
  obtain ⟨_, _, spec, hspec, rfl⟩ := h
  have hworth := newCoinOutputAtHeight_worth hspec
  obtain ⟨howner, hkind, _⟩ := newCoinOutputAtHeight_eq_ok hspec
  refine ⟨_, rfl, ?_⟩
  rw [← howner, ← hkind]
  exact hworth

theorem collateralPayout_brings {os : List Object}
    (h : collateralPayout C e t owner amount index = .ok os) :
    ∃ items, os = items.map (Item.object C t) ∧
      Brings e.nativeToken items [index] amount.toNat := by
  unfold collateralPayout at h
  split at h
  case isTrue =>
    simp only [ok_iff] at h
    obtain ⟨o, ho, rfl⟩ := h
    obtain ⟨spec, rfl, hspec⟩ := lendingPayout_worth ho
    exact ⟨[.fresh index spec], rfl, .single hspec index⟩
  case isFalse hzero =>
    simp only [pure_eq_ok] at h
    rw [UInt64.le_zero_iff.1 (UInt64.not_lt.1 hzero)]
    exact ⟨[], h.symm, brings_nil adds_nil.weaken⟩

theorem returnedCoin_sends {m : OutboundOutput}
    (h : returnedCoin e shard index owner amount = .ok m)
    (hshard : shard ≠ t.shardID) :
    Sends e.nativeToken t [m] amount.toNat := by
  simp only [returnedCoin, ok_iff] at h
  obtain ⟨spec, hspec, rfl⟩ := h
  exact .single (newCoinOutputAtHeight_worth hspec) hshard index

theorem returnedCollateral_sends {ms : List OutboundOutput}
    (h : returnedCollateral e shard index owner amount = .ok ms)
    (hshard : shard ≠ t.shardID) :
    Sends e.nativeToken t ms amount.toNat := by
  unfold returnedCollateral at h
  split at h
  case isTrue =>
    simp only [ok_iff] at h
    obtain ⟨m, hm, rfl⟩ := h
    exact returnedCoin_sends hm hshard
  case isFalse hzero =>
    simp only [pure_eq_ok] at h
    rw [← h, UInt64.le_zero_iff.1 (UInt64.not_lt.1 hzero)]
    exact sends_nil

-- ==== operations

/-- What a lending operation takes and leaves beside its coins, and that
the amounts it accounts for are what that is worth. -/
inductive Lends (C : Crypto) (e : Engine) (t : Transaction) (r : Result) :
    Prop
  | intro (taken : List Object) {extra : List Item} {indices : List UInt32}
      {messages : List OutboundOutput} {inn out : UInt64} {n k : Nat}
      {created : List Object} {outbound : List OutboundOutput}
      {consumed : List ObjectID}
      (account : accountNativeValue C e t (taken.map Object.id) inn out =
        .ok (created, outbound, consumed))
      (takes : Takes t taken)
      (worth : sumOf (lentValue e.nativeToken)
        (taken.map Object.payload) = inn.toNat)
      (brings : Brings e.nativeToken extra indices n)
      (above : Above indices)
      (sends : Sends e.nativeToken t messages k)
      (leaves : n + k = out.toNat)
      (result : r = ⟨consumed ++ taken.map Object.id,
        created ++ extra.map (Item.object C t), outbound ++ messages,
        t.id C⟩)

theorem Lends.leaves (h : Lends C e t r) (hck : Checked C t) :
    Leaves C t r True := by
  cases h with
  | intro _ account takes _ brings above sends _ result =>
    exact leaves_of_adds hck (moves_of_account hck account) takes
      brings.adds above _ sends.valid result

-- ==== one shard

theorem addLendingValue_eq_ok {a b c : UInt64}
    (h : addLendingValue a b = .ok c) : a.toNat + b.toNat = c.toNat := by
  simp only [addLendingValue, ok_iff] at h
  obtain ⟨hfits, rfl⟩ := h
  exact (toNat_add_of_fits hfits).symm

theorem executeLoanOffer_lends
    (h : executeLoanOffer C e t payload = .ok r) : Lends C e t r := by
  simp only [executeLoanOffer, ok_iff] at h
  obtain ⟨terms, _, _, _, _, _, ⟨created, outbound, consumed⟩, hacc, raw,
    hraw, h⟩ := h
  refine .intro [] hacc takes_nil rfl
    (.single (Terms.worth hraw) offerObjectIndex) (by decide) sends_nil rfl
    ?_
  simp [← h, Item.object]

theorem executeLoanCancel_lends
    (h : executeLoanCancel C e t payload = .ok r) : Lends C e t r := by
  simp only [executeLoanCancel, ok_iff] at h
  obtain ⟨offer, hoffer, _, terms, hterms, _, _,
    ⟨created, outbound, consumed⟩, hacc, payout, hpayout, h⟩ := h
  obtain ⟨hmem, hk⟩ := lendingWitness_eq_ok hoffer
  obtain ⟨spec, rfl, hspec⟩ := lendingPayout_worth hpayout
  refine .intro [offer] hacc (.single hmem hk (by decide)) ?_
    (.single hspec payoutObjectIndex) (by decide) sends_nil rfl ?_
  · simp [sumOf, Object.payload, lentValue, amountOf, hk, hterms]
  · simp [← h, Item.object]

theorem executeLoanAccept_lends
    (h : executeLoanAccept C e t payload = .ok r) : Lends C e t r := by
  simp only [executeLoanAccept, ok_iff] at h
  obtain ⟨_, offer, hoffer, terms, hterms, _, _, _, locked, hlocked,
    ⟨created, outbound, consumed⟩, hacc, principal, hprincipal, raw, hraw,
    h⟩ := h
  obtain ⟨hmem, hk⟩ := lendingWitness_eq_ok hoffer
  obtain ⟨spec, rfl, hspec⟩ := lendingPayout_worth hprincipal
  refine .intro [offer] hacc (.single hmem hk (by decide)) ?_
    ((Brings.single (Loan.worth hraw) loanObjectIndex).cons hspec
      payoutObjectIndex) (by decide) sends_nil
    (addLendingValue_eq_ok hlocked) ?_
  · simp [sumOf, Object.payload, lentValue, amountOf, hk, hterms]
  · simp [← h, Item.object]

theorem executeLoanRepay_lends
    (h : executeLoanRepay C e t payload = .ok r) : Lends C e t r := by
  simp only [executeLoanRepay, ok_iff] at h
  obtain ⟨o, ho, _, loan, hloan, _, _, due, _, settlement, hsettlement,
    ⟨created, outbound, consumed⟩, hacc, lenderPayout, hlender, collateral,
    hcollateral, h⟩ := h
  obtain ⟨hmem, hk⟩ := lendingWitness_eq_ok ho
  obtain ⟨spec, rfl, hspec⟩ := lendingPayout_worth hlender
  obtain ⟨items, rfl, hitems⟩ := collateralPayout_brings hcollateral
  refine .intro [o] hacc (.single hmem hk (by decide)) ?_
    (hitems.cons hspec payoutObjectIndex) (by decide) sends_nil
    (addLendingValue_eq_ok hsettlement) ?_
  · simp [sumOf, Object.payload, lentValue, amountOf, hk, hloan]
  · simp [← h, Item.object]

theorem executeLoanDefault_lends
    (h : executeLoanDefault C e t payload = .ok r) : Lends C e t r := by
  simp only [executeLoanDefault, ok_iff] at h
  obtain ⟨_, o, ho, loan, hloan, _, _, ⟨created, outbound, consumed⟩, hacc,
    collateral, hcollateral, h⟩ := h
  obtain ⟨hmem, hk⟩ := lendingWitness_eq_ok ho
  obtain ⟨items, rfl, hitems⟩ := collateralPayout_brings hcollateral
  refine .intro [o] hacc (.single hmem hk (by decide)) ?_ hitems
    (by decide) sends_nil rfl ?_
  · simp [sumOf, Object.payload, lentValue, amountOf, hk, hloan]
  · simp [← h]

theorem executeLending_lends {op : Operation}
    (h : executeLending C e t op = .ok r) : Lends C e t r := by
  unfold executeLending at h
  split at h
  · exact executeLoanOffer_lends h
  split at h
  · exact executeLoanCancel_lends h
  split at h
  · exact executeLoanAccept_lends h
  split at h
  · exact executeLoanRepay_lends h
  split at h
  · exact executeLoanDefault_lends h
  · cases h

-- ==== two shards

theorem executeCrossLoanOffer_lends
    (h : executeCrossLoanOffer C e t payload = .ok r) : Lends C e t r := by
  simp only [executeCrossLoanOffer, ok_iff] at h
  obtain ⟨_, terms, _, _, ⟨lenderShard, borrowerShard⟩, _, h⟩ := h
  simp only [not_or, not_not] at h
  obtain ⟨⟨hlender, hne⟩, _, ⟨created, outbound, consumed⟩, hacc, raw, hraw,
    h⟩ := h
  have hshard : borrowerShard ≠ t.shardID :=
    fun heq => hne (hlender.trans heq.symm)
  refine .intro [] hacc takes_nil rfl (brings_nil adds_nil) (by decide)
    (.single (CrossOffer.worth hraw) hshard crossOfferMessageIndex)
    (Nat.zero_add _) ?_
  simp [← h]

theorem executeCrossLoanAccept_lends
    (h : executeCrossLoanAccept C e t payload = .ok r) : Lends C e t r := by
  simp only [executeCrossLoanAccept, ok_iff] at h
  obtain ⟨_, o, ho, _, offer, hoffer, _, ⟨lenderShard, borrowerShard⟩, _,
    h⟩ := h
  simp only [not_or, not_not] at h
  obtain ⟨⟨_, _, hborrower, hne⟩, _, locked, hlocked,
    ⟨created, outbound, consumed⟩, hacc, acceptanceRaw, hacceptance,
    activationRaw, hactivation, principal, hprincipal, h⟩ := h
  obtain ⟨hmem, hk⟩ := lendingWitness_eq_ok ho
  obtain ⟨spec, rfl, hspec⟩ := lendingPayout_worth hprincipal
  refine .intro [o] hacc (.single hmem hk (by decide)) ?_
    ((Brings.single (CrossActivation.worth hactivation)
      crossActivationObjectIndex).cons hspec crossPrincipalObjectIndex)
    (by decide) (.single (CrossAcceptance.worth hacceptance)
      (hborrower ▸ hne) crossAcceptanceMessageIndex)
    (addLendingValue_eq_ok hlocked) ?_
  · simp [sumOf, Object.payload, lentValue, amountOf, hk, hoffer]
  · simp [← h, Item.object, newObject, hborrower]

theorem executeCrossLoanRepay_lends
    (h : executeCrossLoanRepay C e t payload = .ok r) : Lends C e t r := by
  simp only [executeCrossLoanRepay, ok_iff] at h
  obtain ⟨_, o, ho, _, activation, _, _, ⟨lenderShard, borrowerShard⟩, _,
    h⟩ := h
  simp only [not_or, not_not] at h
  obtain ⟨⟨_, _, hborrower, hne⟩, due, _, _, ⟨created, outbound, consumed⟩,
    hacc, termsHash, hterms, raw, hraw, h⟩ := h
  obtain ⟨hmem, hk⟩ := lendingWitness_eq_ok ho
  simp only [Terms.hash, Terms.marshalBinary, ok_iff] at hterms
  obtain ⟨_, ⟨hvalid, _⟩, _⟩ := hterms
  refine .intro [o] hacc (.single hmem hk (by decide)) ?_
    (brings_nil adds_nil) (by decide)
    (.single (CrossRepayment.worth (Terms.owners hvalid).1 hraw)
      (hborrower ▸ hne) crossRepaymentMessageIndex) (Nat.zero_add _) ?_
  · simp [sumOf, Object.payload, lentValue, coinAmount, hk]
  · simp [← h]

theorem executeCrossLoanSettle_lends
    (h : executeCrossLoanSettle C e t = .ok r) : Lends C e t r := by
  simp only [executeCrossLoanSettle, ok_iff] at h
  obtain ⟨a, ha, p, hp, acceptance, hacceptance, _, repayment, hrepayment,
    _, ⟨lenderShard, borrowerShard⟩, _, h⟩ := h
  simp only [not_or, not_not] at h
  obtain ⟨⟨hlender, _, _, hne⟩, due, _, termsHash, _,
    ⟨_, _, _, _, hdue, _⟩, _, internal, hinternal,
    ⟨created, outbound, consumed⟩, hacc, lenderPayout, hpayout, returned,
    hreturned, h⟩ := h
  obtain ⟨hamem, hak⟩ := mem_of_witnessByKind ha
  obtain ⟨hpmem, hpk⟩ := mem_of_witnessByKind hp
  obtain ⟨spec, rfl, hspec⟩ := lendingPayout_worth hpayout
  have hdiffer : a ∉ [p] := by
    rintro hap
    rw [List.mem_singleton.1 hap, hpk] at hak
    cases hak
  have hshard : borrowerShard ≠ t.shardID :=
    fun heq => hne (hlender.trans heq.symm)
  have hsum := addLendingValue_eq_ok hinternal
  refine .intro [a, p] hacc ((Takes.single hpmem hpk (by decide)).cons hamem
    hdiffer hak (by decide)) ?_ (.single hspec payoutObjectIndex)
    (by decide) (returnedCollateral_sends hreturned hshard)
    ((Nat.add_comm _ _).trans hsum) ?_
  · simp [sumOf, Object.payload, lentValue, amountOf, hak, hpk, hacceptance,
      hrepayment, hdue, hsum]
  · simp [← h, Item.object]

theorem executeCrossLoanDefault_lends
    (h : executeCrossLoanDefault C e t payload = .ok r) :
    Lends C e t r := by
  simp only [executeCrossLoanDefault, ok_iff] at h
  obtain ⟨o, ho, _, acceptance, hacceptance, _,
    ⟨lenderShard, borrowerShard⟩, _, _, _, ⟨created, outbound, consumed⟩,
    hacc, collateral, hcollateral, h⟩ := h
  obtain ⟨hmem, hk⟩ := lendingWitness_eq_ok ho
  obtain ⟨items, rfl, hitems⟩ := collateralPayout_brings hcollateral
  refine .intro [o] hacc (.single hmem hk (by decide)) ?_ hitems
    (by decide) sends_nil rfl ?_
  · simp [sumOf, Object.payload, lentValue, amountOf, hk, hacceptance]
  · simp [← h]

/-- The shards of the two accounts of a loan differ. -/
theorem crossLendingShards_ne {a b : UInt32}
    (h : crossLendingShards e terms = .ok (a, b)) : a ≠ b := by
  simp only [crossLendingShards, ok_iff, Prod.mk.injEq] at h
  obtain ⟨_, hne, rfl, rfl⟩ := h
  exact hne

theorem executeCrossLoanExpire_lends
    (h : executeCrossLoanExpire C e t payload = .ok r) : Lends C e t r := by
  simp only [executeCrossLoanExpire, ok_iff] at h
  obtain ⟨o, ho, offer, hoffer, _, ⟨lenderShard, borrowerShard⟩, hshards,
    h⟩ := h
  simp only [not_or, not_not] at h
  obtain ⟨⟨hborrower, _, _⟩, _, ⟨created, outbound, consumed⟩, hacc, coin,
    hreturn, h⟩ := h
  obtain ⟨hmem, hk⟩ := lendingWitness_eq_ok ho
  refine .intro [o] hacc (.single hmem hk (by decide)) ?_
    (brings_nil adds_nil) (by decide) (returnedCoin_sends hreturn
      (hborrower ▸ crossLendingShards_ne hshards)) (Nat.zero_add _) ?_
  · simp [sumOf, Object.payload, lentValue, amountOf, hk, hoffer]
  · simp [← h]

theorem executeCrossShardLending_lends {op : Operation}
    (h : executeCrossShardLending C e t op = .ok r) : Lends C e t r := by
  unfold executeCrossShardLending at h
  split at h
  · exact executeCrossLoanOffer_lends h
  split at h
  · exact executeCrossLoanAccept_lends h
  split at h
  · exact executeCrossLoanRepay_lends h
  split at h
  · exact executeCrossLoanSettle_lends h
  split at h
  · exact executeCrossLoanDefault_lends h
  split at h
  · exact executeCrossLoanExpire_lends h
  · cases h

end ZephyrChain.Execution
