/-
A transfer balances every token. The totals are Go maps from tokens to
amounts; read as functions, a completed loop over the witnesses or the
outputs says that each total is the exact sum of the coins of that token
(`TransferSpends`, `TransferMakes`), and the last loop that the two
agree up to the fee.

The fee of a transfer is part of the balance of the native token, and
that balance is only looked at when a native coin is spent: a transfer
without one pays no fee.
-/
import ZephyrChain.Execution.Proofs.Accounting

namespace ZephyrChain.Execution

open Lib

variable {C : Crypto} {e : Engine} {t : Transaction}

-- ==== totals

theorem Totals.add_eq_ok {totals totals' : Totals} {token : TokenID}
    {amount : UInt64} (h : totals.add token amount = .ok totals')
    (other : TokenID) :
    (totals'.get other).toNat = (totals.get other).toNat +
      if token = other then amount.toNat else 0 := by
  simp only [Totals.add, ok_iff] at h
  obtain ⟨hfits, rfl⟩ := h
  by_cases heq : token = other
  · subst heq
    rw [if_pos rfl, ← toNat_add_of_fits hfits]
    simp only [Totals.get, AList.lookup_insert, Option.getD_some]
  · rw [if_neg heq, Nat.add_zero]
    simp only [Totals.get, AList.lookup_insert_ne (Ne.symm heq)]

/-- The amount of one coin, at any token. -/
theorem coinAmount_of_parse {p : Payload} {c : Coin} (hk : p.1 = .coin)
    (hc : parseCoin p.2 = .ok c) (token : TokenID) :
    coinAmount token p = if c.token = token then c.amount.toNat else 0 := by
  obtain ⟨k, d⟩ := p
  cases hk
  simp only at hc
  simp only [coinAmount, amountOf, hc]

-- ==== inputs

/-- What the loop over the witnesses has read. -/
structure TransferSpends (t : Transaction) (objs : List Object)
    (s : TransferInputs) : Prop where
  consumed : s.consumed =
    (objs.filter fun o => o.kind = .coin).map Object.id
  kinds : ∀ o ∈ objs, o.kind = .coin ∨ o.kind = .tokenDefinition
  owner : ∀ o ∈ objs, o.kind = .coin → o.owner = t.sender
  total : ∀ token, (s.inputTotals.get token).toNat =
    sumOf (coinAmount token) (objs.map Object.payload)

theorem transferSpends_of_loop {s : TransferInputs}
    (h : t.objects.foldlM (transferInputStep e t) ⟨∅, ∅, []⟩ = .ok s) :
    TransferSpends t t.objects s := by
  refine foldlM_prefix (P := TransferSpends t) ?_ ?_ h
  · exact ⟨rfl, by simp, by simp, fun _ => rfl⟩
  intro pre o s s' _ hs hstep
  have hkinds (hk : o.kind = .coin ∨ o.kind = .tokenDefinition) :
      ∀ o' ∈ pre ++ [o], o'.kind = .coin ∨ o'.kind = .tokenDefinition :=
    List.forall_mem_append.2 ⟨hs.kinds, List.forall_mem_singleton.2 hk⟩
  unfold transferInputStep at hstep
  split at hstep
  case h_1 hk =>
    simp only [ok_iff, not_not] at hstep
    obtain ⟨howner, c, hc, totals, hadd, rfl⟩ := hstep
    refine ⟨?_, hkinds (.inl hk), ?_, ?_⟩
    · simp [hs.consumed, hk]
    · exact List.forall_mem_append.2
        ⟨hs.owner, List.forall_mem_singleton.2 fun _ => howner⟩
    · intro token
      rw [Totals.add_eq_ok hadd token, hs.total token, List.map_append,
        sumOf_append, List.map_singleton, sumOf_cons, sumOf_nil,
        coinAmount_of_parse (p := o.payload) hk hc token, Nat.add_zero]
  case h_2 hk =>
    simp only [ok_iff] at hstep
    obtain ⟨d, _, _, _, rfl⟩ := hstep
    have hnot : o.kind ≠ .coin := by
      rw [hk]
      decide
    refine ⟨?_, hkinds (.inr hk), ?_, ?_⟩
    · simp [hs.consumed, hnot]
    · exact List.forall_mem_append.2 ⟨hs.owner,
        List.forall_mem_singleton.2 fun hcoin => absurd hcoin hnot⟩
    · intro token
      rw [hs.total token, List.map_append, sumOf_append, List.map_singleton,
        sumOf_cons, sumOf_nil, coinAmount_of_ne (p := o.payload) hnot]
      rfl
  case h_3 => cases hstep

-- ==== outputs

/-- What the loop over the outputs has made: coins, those of custom
tokens on the shard itself. -/
structure TransferMakes (C : Crypto) (e : Engine) (t : Transaction)
    (s : TransferOutputs) : Prop where
  fresh : ∀ o ∈ s.change.created, Fresh C t o
  coin : ∀ p ∈ s.change.payloads, p.1 = .coin
  sent_native : ∀ m ∈ s.change.outbound, IsCoin e.nativeToken m.payload
  total : ∀ token, (s.outputTotals.get token).toNat =
    sumOf (coinAmount token) s.change.payloads

/-- An output that is sent away, or kept. -/
theorem Change.mem_outbound_place {s : Change} {destination : UInt32}
    {i : Nat} {spec : OutputSpec} {m : OutboundOutput}
    (h : m ∈ (s.place C t destination i spec).outbound) :
    m ∈ s.outbound ∨
      (destination ≠ t.shardID ∧ m.payload = (spec.kind, spec.data)) := by
  unfold place at h
  split at h
  case isTrue => exact .inl h
  case isFalse hne =>
    rcases List.mem_append.1 h with h | h
    · exact .inl h
    · rw [List.mem_singleton.1 h]
      exact .inr ⟨hne, rfl⟩

variable {definitions : Definitions}

theorem transferMakes_of_loop {s : TransferOutputs}
    (h : t.outputs.zipIdx.foldlM (transferOutputStep C e t definitions)
      ⟨∅, ⟨0, [], []⟩⟩ = .ok s) : TransferMakes C e t s := by
  refine foldlM_invariant (TransferMakes C e t) ?_ _ _ _ ?_ h
  · rintro s ⟨spec, i⟩ s' hs hstep
    simp only [transferOutputStep, ok_iff, not_and, not_not] at hstep
    obtain ⟨hk, c, hc, _, totals, hadd, destination, _, hstay, stamped, hst,
      rfl⟩ := hstep
    obtain ⟨_, hk', hc'⟩ := stampCoinOutput_eq_ok hk hc hst
    refine ⟨Change.fresh_place hs.fresh, ?_, ?_, ?_⟩
    · intro p hp
      rcases Change.mem_payloads_place hp with hp | rfl
      · exact hs.coin p hp
      · exact hk'
    · intro m hm
      rcases Change.mem_outbound_place hm with hm | ⟨haway, hm⟩
      · exact hs.sent_native m hm
      -- a coin that leaves the shard is native
      · rw [hm]
        refine ⟨hk', _, hc', ?_⟩
        by_contra hcustom
        exact haway (hstay hcustom)
    · intro token
      rw [Totals.add_eq_ok hadd token, hs.total token,
        Change.payloads_place, coinAmount_of_parse hk' hc' token]
  · exact ⟨by simp, by simp [Change.payloads], by simp, fun _ => rfl⟩

-- ==== balance

/-- What a transfer leaves of a token, apart from the outputs. -/
def transferFee (e : Engine) (t : Transaction) (inputs : Totals)
    (token : TokenID) : Nat :=
  if token = e.nativeToken ∧ token ∈ inputs then t.fee.toNat else 0

/-- The last loop strikes off the tokens it has balanced. -/
structure Struck (e : Engine) (t : Transaction) (outputs : Totals)
    (pre : List (Σ _ : TokenID, UInt64)) (left : Totals) : Prop where
  balanced : ∀ entry ∈ pre, entry.2.toNat = (outputs.get entry.1).toNat +
    if entry.1 = e.nativeToken then t.fee.toNat else 0
  lookup : ∀ token, left.lookup token =
    if token ∈ pre.map Sigma.fst then none else outputs.lookup token

theorem balanceStep_eq_ok {left left' : Totals}
    {entry : Σ _ : TokenID, UInt64}
    (h : balanceStep e t definitions left entry = .ok left') :
    entry.2.toNat = (left.get entry.1).toNat +
        (if entry.1 = e.nativeToken then t.fee.toNat else 0) ∧
      left' = left.erase entry.1 := by
  obtain ⟨token, amount⟩ := entry
  unfold balanceStep at h
  simp only at h
  split at h
  case isTrue hnative =>
    simp only [ok_iff, not_not] at h
    obtain ⟨hfits, heq, rfl⟩ := h
    rw [if_pos hnative, heq, toNat_add_of_fits hfits]
    exact ⟨rfl, rfl⟩
  case isFalse hcustom =>
    simp only [ok_iff, not_not] at h
    obtain ⟨_, heq, rfl⟩ := h
    rw [if_neg hcustom, heq]
    exact ⟨rfl, rfl⟩

theorem struck_of_loop {inputs outputs : Totals} {left : Totals}
    (h : inputs.entries.foldlM (balanceStep e t definitions) outputs =
      .ok left) : Struck e t outputs inputs.entries left := by
  refine foldlM_prefix (P := Struck e t outputs) ?_ ?_ h
  · exact ⟨by simp, fun token => by simp⟩
  intro pre entry left left' hpre hs hstep
  obtain ⟨hamount, rfl⟩ := balanceStep_eq_ok hstep
  -- each token is struck off once, so its total is still there when its
  -- turn comes
  have hnew : entry.1 ∉ pre.map Sigma.fst := by
    have hkeys : (inputs.entries.map Sigma.fst).Nodup := inputs.nodupKeys
    have hnodup := hkeys.sublist (hpre.sublist.map Sigma.fst)
    rw [List.map_append] at hnodup
    intro hmem
    exact (List.nodup_append.1 hnodup).2.2 _ hmem _
      (List.mem_singleton_self _) rfl
  refine ⟨?_, fun token => ?_⟩
  · refine List.forall_mem_append.2
      ⟨hs.balanced, List.forall_mem_singleton.2 ?_⟩
    have hlookup := hs.lookup entry.1
    rw [if_neg hnew] at hlookup
    rw [hamount, Totals.get, Totals.get, hlookup]
  · by_cases heq : token = entry.1
    · subst heq
      rw [AList.lookup_erase, if_pos (by simp)]
    · have hiff : token ∈ (pre ++ [entry]).map Sigma.fst ↔
          token ∈ pre.map Sigma.fst := by
        simp [heq]
      rw [AList.lookup_erase_ne heq, hs.lookup token, if_congr hiff rfl rfl]

/-- Spent and made amounts of a token differ by the fee at most. -/
theorem balance_of_struck {inputs outputs left : Totals}
    (h : Struck e t outputs inputs.entries left)
    (hleft : left.entries.length = 0) (token : TokenID) :
    (inputs.get token).toNat = (outputs.get token).toNat +
      transferFee e t inputs token := by
  by_cases hmem : token ∈ inputs
  · obtain ⟨amount, hlookup⟩ := Option.isSome_iff_exists.1
      (AList.lookup_isSome.2 hmem)
    have hentry : (⟨token, amount⟩ : Σ _ : TokenID, UInt64) ∈
        inputs.entries := AList.mem_lookup_iff.1 hlookup
    have hamount := h.balanced _ hentry
    simp only [transferFee, hmem, and_true, Totals.get, hlookup,
      Option.getD_some] at hamount ⊢
    exact hamount
  · -- nothing is left, so there was no output of the token either
    have hkey : token ∉ inputs.entries.map Sigma.fst := hmem
    have hnone := h.lookup token
    rw [if_neg hkey] at hnone
    have hempty : left.lookup token = none := by
      rw [AList.lookup_eq_none, AList.mem_keys, AList.keys,
        List.length_eq_zero_iff.1 hleft]
      simp
    rw [hempty] at hnone
    simp only [transferFee, hmem, and_false, if_false, Totals.get,
      AList.lookup_eq_none.2 hmem, ← hnone, Option.getD_none]
    rfl

/-- What a transfer does. -/
structure Transfers (C : Crypto) (e : Engine) (t : Transaction)
    (r : Result) : Prop where
  consumed : r.consumed =
    (t.objects.filter fun o => o.kind = .coin).map Object.id
  owner : ∀ o ∈ t.objects, o.kind = .coin → o.owner = t.sender
  fresh : ∀ o ∈ r.created, Fresh C t o
  coin : ∀ p ∈ r.produced, p.1 = .coin
  sent_native : ∀ m ∈ r.outbound, IsCoin e.nativeToken m.payload
  txID : r.txID = t.id C
  balance : ∃ fee : TokenID → Nat,
    (∀ token, sumOf (coinAmount token) (t.objects.map Object.payload) =
      sumOf (coinAmount token) r.produced + fee token) ∧
    ∀ token, fee token = 0 ∨ token = e.nativeToken ∧
      fee token = t.fee.toNat

theorem executeTransfer_eq_ok {r : Result}
    (h : executeTransfer C e t = .ok r) : Transfers C e t r := by
  simp only [executeTransfer, ok_iff, not_not] at h
  obtain ⟨inputs, hin, outputs, hout, left, hbalance, hleft, rfl⟩ := h
  have hspent := transferSpends_of_loop hin
  have hmade := transferMakes_of_loop hout
  refine ⟨hspent.consumed, hspent.owner, hmade.fresh, hmade.coin,
    hmade.sent_native, rfl, transferFee e t inputs.inputTotals, ?_, ?_⟩
  · intro token
    have hsum := balance_of_struck (struck_of_loop hbalance) hleft token
    rw [hspent.total token, hmade.total token] at hsum
    exact hsum
  · intro token
    unfold transferFee
    split
    case isTrue hnative => exact .inr ⟨hnative.1, rfl⟩
    case isFalse => exact .inl rfl

end ZephyrChain.Execution
