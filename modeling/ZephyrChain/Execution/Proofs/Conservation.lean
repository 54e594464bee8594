/-
What a transfer conserves, token by token.

The last loop of `executeTransfer` runs over the tokens among the inputs
and adds the fee to what the native token has to cover. A transfer whose
inputs hold no native coin therefore never meets its fee: everything it
spends of other tokens comes back as outputs and the fee it states is
not taken from anyone. That is the only way to miss the balance
(`executeTransfer_conserves_iff`).
-/
import ZephyrChain.Execution.Proofs.Execute

namespace ZephyrChain.Execution

open Lib

variable {C : Crypto} {e : Engine} {t : Transaction} {r : Result}

-- ==== amounts

/-- What the witnesses a result consumes hold of a token. -/
def coinsConsumed (t : Transaction) (r : Result) (token : TokenID) : Nat :=
  sumOf (coinAmount token)
    ((t.objects.filter fun o => o.id ∈ r.consumed).map Object.payload)

/-- What a result creates or sends of a token. -/
def coinsProduced (r : Result) (token : TokenID) : Nat :=
  sumOf (coinAmount token) r.produced

/-- Spent and made amounts of every token agree, the native ones up to
the whole fee. -/
def ConservesCoins (e : Engine) (t : Transaction) (r : Result) : Prop :=
  ∀ token, coinsConsumed t r token = coinsProduced r token +
    if token = e.nativeToken then t.fee.toNat else 0

/-- A coin of the native token is among the inputs. -/
def SpendsNative (e : Engine) (t : Transaction) : Prop :=
  ∃ o ∈ t.objects, IsCoin e.nativeToken o.payload

-- ==== inputs

theorem Totals.mem_add {totals totals' : Totals} {token : TokenID}
    {amount : UInt64} (h : totals.add token amount = .ok totals')
    (other : TokenID) :
    other ∈ totals' ↔ other = token ∨ other ∈ totals := by
  simp only [Totals.add, ok_iff] at h
  obtain ⟨-, rfl⟩ := h
  exact AList.mem_insert totals

/-- The totals of the inputs have an entry for exactly the tokens of the
coins that were read. -/
theorem mem_inputTotals {s : TransferInputs}
    (h : t.objects.foldlM (transferInputStep e t) ⟨∅, ∅, []⟩ = .ok s)
    (token : TokenID) :
    token ∈ s.inputTotals ↔ ∃ o ∈ t.objects, IsCoin token o.payload := by
  refine foldlM_prefix (P := fun objs s => token ∈ s.inputTotals ↔
    ∃ o ∈ objs, IsCoin token o.payload) ?_ ?_ h
  · exact iff_of_false (AList.notMem_empty token) (by simp)
  intro pre o s s' _ hs hstep
  have hsplit : (∃ o' ∈ pre ++ [o], IsCoin token o'.payload) ↔
      (∃ o' ∈ pre, IsCoin token o'.payload) ∨ IsCoin token o.payload := by
    simp only [List.mem_append, List.mem_singleton, or_and_right,
      exists_or, exists_eq_left]
  rw [hsplit, ← hs]
  unfold transferInputStep at hstep
  split at hstep
  case h_1 hk =>
    simp only [ok_iff] at hstep
    obtain ⟨_, c, hc, totals, hadd, rfl⟩ := hstep
    have hcoin : IsCoin token o.payload ↔ token = c.token := by
      constructor
      · rintro ⟨_, c', hc', htoken⟩
        have heq : Except.ok c' = Except.ok c := hc'.symm.trans hc
        cases heq
        exact htoken.symm
      · intro htoken
        exact ⟨hk, c, hc, htoken.symm⟩
    rw [Totals.mem_add hadd, hcoin, or_comm]
  case h_2 hk =>
    simp only [ok_iff] at hstep
    obtain ⟨d, _, _, _, rfl⟩ := hstep
    have hnot : ¬ IsCoin token o.payload := by
      rintro ⟨hcoin, _⟩
      have hkind : o.kind = .coin := hcoin
      rw [hk] at hkind
      cases hkind
    rw [or_iff_left hnot]
  case h_3 => cases hstep

/-- The witnesses that are consumed hold all the coins there are. -/
theorem Transfers.coinsConsumed (h : Transfers C e t r)
    (token : TokenID) : Execution.coinsConsumed t r token =
      sumOf (coinAmount token) (t.objects.map Object.payload) := by
  have hall : ∀ os : List Object,
      (∀ o ∈ os, o.kind = .coin → o.id ∈ r.consumed) →
      sumOf (coinAmount token)
          ((os.filter fun o => o.id ∈ r.consumed).map Object.payload) =
        sumOf (coinAmount token) (os.map Object.payload) := by
    intro os hos
    induction os with
    | nil => rfl
    | cons o os ih =>
      have ih := ih fun o' ho' => hos o' (List.mem_cons_of_mem _ ho')
      by_cases hid : o.id ∈ r.consumed
      · rw [List.filter_cons_of_pos (by simpa using hid), List.map_cons,
          List.map_cons, sumOf_cons, sumOf_cons, ih]
      · have hk : o.payload.1 ≠ .coin := fun hk =>
          hid (hos o List.mem_cons_self hk)
        rw [List.filter_cons_of_neg (by simpa using hid), List.map_cons,
          sumOf_cons, coinAmount_of_ne hk, Nat.zero_add, ih]
  refine hall t.objects ?_
  intro o ho hk
  rw [h.consumed]
  exact List.mem_map_of_mem (List.mem_filter.2 ⟨ho, by simpa using hk⟩)

-- ==== balance

/-- A transfer takes the fee exactly when it spends a native coin. -/
theorem executeTransfer_balance (h : executeTransfer C e t = .ok r)
    (token : TokenID) :
    (coinsConsumed t r token = coinsProduced r token ∧
        ¬ (token = e.nativeToken ∧ SpendsNative e t)) ∨
      coinsConsumed t r token = coinsProduced r token + t.fee.toNat ∧
        token = e.nativeToken ∧ SpendsNative e t := by
  have hr := executeTransfer_eq_ok h
  simp only [executeTransfer, ok_iff, not_not] at h
  obtain ⟨inputs, hin, outputs, hout, left, hbalance, hleft, rfl⟩ := h
  have hsum := balance_of_struck (struck_of_loop hbalance) hleft token
  rw [(transferSpends_of_loop hin).total token,
    (transferMakes_of_loop hout).total token,
    ← hr.coinsConsumed token] at hsum
  have hmem : token = e.nativeToken ∧ token ∈ inputs.inputTotals ↔
      token = e.nativeToken ∧ SpendsNative e t := by
    refine and_congr_right ?_
    intro hnative
    rw [mem_inputTotals hin token, hnative]
    exact Iff.rfl
  unfold transferFee at hsum
  split at hsum
  case isTrue hfee => exact .inr ⟨hsum, hmem.1 hfee⟩
  case isFalse hfee => exact .inl ⟨hsum, fun hcond => hfee (hmem.2 hcond)⟩

/-- Only a coin of the token has an amount of it. -/
theorem coinAmount_of_not_isCoin {token : TokenID} {p : Payload}
    (h : ¬ IsCoin token p) : coinAmount token p = 0 := by
  by_cases hk : p.1 = .coin
  · cases hc : parseCoin p.2 with
    | error failure =>
      obtain ⟨k, d⟩ := p
      cases hk
      simp only at hc
      simp only [coinAmount, amountOf, hc]
    | ok c =>
      have hne : c.token ≠ token := fun heq => h ⟨hk, c, hc, heq⟩
      rw [coinAmount_of_parse hk hc, if_neg hne]
  · exact coinAmount_of_ne hk

/-- Without a native coin nothing native is consumed. -/
theorem coinsConsumed_native_eq_zero (h : ¬ SpendsNative e t) :
    coinsConsumed t r e.nativeToken = 0 := by
  refine sumOf_eq_zero (List.forall_mem_map.2 ?_)
  intro o ho
  refine coinAmount_of_not_isCoin ?_
  intro hcoin
  exact h ⟨o, (List.mem_filter.1 ho).1, hcoin⟩

/-- The fee is covered by native coins exactly when it is zero or there
are any. -/
theorem fee_le_coinsConsumed_iff (h : executeTransfer C e t = .ok r) :
    t.fee.toNat ≤ coinsConsumed t r e.nativeToken ↔
      t.fee = 0 ∨ SpendsNative e t := by
  by_cases hnative : SpendsNative e t
  · rcases executeTransfer_balance h e.nativeToken with hkept | hpaid
    · exact absurd ⟨rfl, hnative⟩ hkept.2
    · rw [hpaid.1]
      exact iff_of_true (Nat.le_add_left _ _) (.inr hnative)
  · rw [coinsConsumed_native_eq_zero hnative, Nat.le_zero,
      or_iff_left hnative, ← UInt64.toNat_inj]
    rfl

/-- A transfer that is executed conserves every token and pays its fee in
native coins exactly when the fee is zero or a native coin is spent. -/
theorem executeTransfer_conserves_iff (h : executeTransfer C e t = .ok r) :
    (ConservesCoins e t r ∧
        t.fee.toNat ≤ coinsConsumed t r e.nativeToken) ↔
      t.fee = 0 ∨ SpendsNative e t := by
  rw [fee_le_coinsConsumed_iff h, and_iff_right_iff_imp]
  intro hcond token
  rcases executeTransfer_balance h token with ⟨hsum, hkept⟩ | hpaid
  · rw [hsum]
    split
    case isTrue hnative =>
      -- no native coin is spent, so the fee is zero
      have hfee : t.fee = 0 :=
        hcond.resolve_right fun hspent => hkept ⟨hnative, hspent⟩
      rw [hfee]
      rfl
    case isFalse => rfl
  · rw [hpaid.1, if_pos hpaid.2.1]

-- ==== samples

section Samples

open WorldState (truncatingCrypto)

/-- An object of the sender. -/
def heldObject (id : ObjectID) (kind : Kind) (data : Bytes) : Witness where
  object := ⟨id, 1, accountIDFromPublicKey truncatingCrypto sampleKey, kind,
    data⟩
  proof := ⟨true, Bytes32.zero, []⟩

/-- A transfer of coins to the sender, with a fee of seven. -/
def feeTransfer (inputs : List Witness) (paid : Coin) : Transaction :=
  { sampleTransaction truncatingCrypto ⟨Op.transfer, []⟩ with
    outputs := [⟨accountIDFromPublicKey truncatingCrypto sampleKey, .coin,
      paid.marshalBinary⟩]
    fee := 7
    witnesses := inputs }

/-- Twelve native units, five of them returned. -/
def paidTransfer : Transaction :=
  feeTransfer [heldObject (Vector.replicate 32 8) .coin
    (Coin.marshalBinary ⟨Vector.replicate 32 7, 12, 0⟩)]
    ⟨Vector.replicate 32 7, 5, 0⟩

/-- The definition of a token that may be transferred. -/
def customDefinition : Definition where
  tokenID := Vector.replicate 32 9
  name := [65]
  symbol := [65]
  decimals := 0
  supplyPolicy := .fixed
  maxSupply := 5
  currentSupply := 5
  mintAuthority := Vector.replicate 32 1
  burnable := false
  transferable := true

/-- Five units of a custom token, all of them returned. -/
def unpaidTransfer : Transaction :=
  feeTransfer
    [heldObject (Vector.replicate 32 8) .coin
      (Coin.marshalBinary ⟨customDefinition.tokenID, 5, 0⟩),
    heldObject (Vector.replicate 32 6) .tokenDefinition
      customDefinition.encode]
    ⟨customDefinition.tokenID, 5, 0⟩

/-- The native amounts of a transfer that succeeds. -/
def transferSums (e : Engine) (t : Transaction) :
    Except Error (Nat × Nat) := do
  let r ← executeTransfer truncatingCrypto e t
  return (coinsConsumed t r e.nativeToken, coinsProduced r e.nativeToken)

theorem transferSums_eq_ok {spent made : Nat}
    (h : transferSums e t = .ok (spent, made)) :
    ∃ r, executeTransfer truncatingCrypto e t = .ok r ∧
      coinsConsumed t r e.nativeToken = spent ∧
      coinsProduced r e.nativeToken = made := by
  simp only [transferSums, ok_iff, Prod.mk.injEq] at h
  obtain ⟨r, hr, hspent, hmade⟩ := h
  exact ⟨r, hr, hspent, hmade⟩

theorem paidTransfer_conserves :
    ∃ r, executeTransfer truncatingCrypto
        (sampleEngine (Vector.replicate 32 7)) paidTransfer = .ok r ∧
      ConservesCoins (sampleEngine (Vector.replicate 32 7))
        paidTransfer r := by
  have hrun : transferSums (sampleEngine (Vector.replicate 32 7))
      paidTransfer = .ok (12, 5) := by
    decide +kernel
  obtain ⟨r, hr, _, _⟩ := transferSums_eq_ok hrun
  have hcoin : IsCoin (Vector.replicate 32 7)
      (Kind.coin, Coin.marshalBinary ⟨Vector.replicate 32 7, 12, 0⟩) :=
    ⟨rfl, ⟨Vector.replicate 32 7, 12, 0⟩, by decide +kernel, rfl⟩
  have hnative : SpendsNative (sampleEngine (Vector.replicate 32 7))
      paidTransfer :=
    ⟨_, List.mem_cons_self, hcoin⟩
  exact ⟨r, hr, ((executeTransfer_conserves_iff hr).2 (.inr hnative)).1⟩

/-- The fee of seven is taken from nowhere. -/
theorem unpaidTransfer_loses_fee :
    ∃ r, executeTransfer truncatingCrypto
        (sampleEngine (Vector.replicate 32 7)) unpaidTransfer = .ok r ∧
      unpaidTransfer.fee = 7 ∧
      coinsConsumed unpaidTransfer r (Vector.replicate 32 7) = 0 ∧
      coinsProduced r (Vector.replicate 32 7) = 0 ∧
      ¬ ConservesCoins (sampleEngine (Vector.replicate 32 7))
        unpaidTransfer r := by
  have hrun : transferSums (sampleEngine (Vector.replicate 32 7))
      unpaidTransfer = .ok (0, 0) := by
    decide +kernel
  obtain ⟨r, hr, hspent, hmade⟩ := transferSums_eq_ok hrun
  refine ⟨r, hr, rfl, hspent, hmade, ?_⟩
  intro hkeeps
  have hnative := hkeeps (sampleEngine (Vector.replicate 32 7)).nativeToken
  rw [hspent, hmade, if_pos rfl] at hnative
  exact absurd hnative (by decide)

end Samples

end ZephyrChain.Execution
