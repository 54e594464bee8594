/-
Loans keep the books. Whatever a lending operation is, on one shard or
across two, every input of its transaction is used up, and what the
inputs held is what the new objects and the messages to the other shard
hold, plus the fee. `lentValue` says what an object of a loan holds.
-/
import ZephyrChain.Execution.Proofs.Footprint.Execute
import ZephyrChain.Execution.Proofs.Isolation

namespace ZephyrChain.Execution

open Lib
open WorldState (shallowCrypto)

variable {C : Crypto} {e : Engine} {t : Transaction} {r : Result}

-- ==== one operation

theorem lentValue_of_isCoin {token : TokenID} {p : Payload}
    (h : IsCoin token p) : lentValue token p = coinAmount token p := by
  obtain ⟨kind, data⟩ := p
  cases h.1
  rfl

/-- The witnesses are what an operation names and the coins it spends. -/
theorem objects_perm {taken : List Object}
    (hnodup : (t.objects.map Object.id).Nodup) (ht : Takes t taken) :
    t.objects.Perm (spentObjects t (taken.map Object.id) ++ taken) := by
  have hsplit := List.filter_append_perm
    (fun o => o.id ∉ taken.map Object.id) t.objects
  refine hsplit.symm.trans (List.Perm.append_left _ ?_)
  refine (List.perm_ext_iff_of_nodup
    ((List.Nodup.of_map _ hnodup).filter _) ht.nodup).2 fun o => ?_
  rw [List.mem_filter]
  simp only [decide_not, Bool.not_not, decide_eq_true_eq]
  constructor
  · rintro ⟨ho, hid⟩
    obtain ⟨o', ho', heq⟩ := List.mem_map.1 hid
    rwa [← List.inj_on_of_nodup_map hnodup (ht.mem o' ho') ho heq]
  · exact fun ho => ⟨ht.mem o ho, List.mem_map_of_mem ho⟩

theorem Lends.conserves (h : Lends C e t r)
    (hnodup : (t.objects.map Object.id).Nodup) :
    r.consumed.Perm (t.objects.map Object.id) ∧
      sumOf (lentValue e.nativeToken) (t.objects.map Object.payload) =
        sumOf (lentValue e.nativeToken) r.produced + t.fee.toNat := by
  cases h with
  | intro taken account takes worth brings _ sends leaves result =>
    obtain ⟨hbal, hconsumed⟩ := accountNativeValue_eq_ok account
    have hperm := objects_perm hnodup takes
    have hcoins : ∀ {ps : List Payload},
        (∀ p ∈ ps, IsCoin e.nativeToken p) →
        sumOf (lentValue e.nativeToken) ps =
          sumOf (coinAmount e.nativeToken) ps :=
      fun hps => sumOf_congr fun p hp => lentValue_of_isCoin (hps p hp)
    subst result hconsumed
    refine ⟨?_, ?_⟩
    · rw [← List.map_append]
      exact (hperm.map _).symm
    · have hsum : sumOf (lentValue e.nativeToken)
          (t.objects.map Object.payload) = _ :=
        ((hperm.map Object.payload).map (lentValue e.nativeToken)).sum_eq
      have hbalance := hbal.balance
      rw [← hcoins (List.forall_mem_map.2 hbal.spent_native),
        ← hcoins (List.forall_mem_map.2 hbal.change_native),
        ← hcoins (List.forall_mem_map.2 hbal.sent_native)] at hbalance
      have hbrings := brings.value C t
      have hsends := sends.value
      simp only [Result.produced, List.map_append, sumOf_append]
      change _ = sumOf _ (List.map Object.payload (_ ++ _)) at hsum
      rw [List.map_append, sumOf_append] at hsum
      omega

-- ==== the engine

/-- The operations of a loan. -/
def lendingOps : List UInt16 :=
  [Op.loanOffer, Op.loanCancel, Op.loanAccept, Op.loanRepay, Op.loanDefault,
    Op.crossLoanOffer, Op.crossLoanAccept, Op.crossLoanRepay,
    Op.crossLoanSettle, Op.crossLoanDefault, Op.crossLoanExpire]

theorem executeOperation_lends {op : Operation}
    (hkind : op.kind ∈ lendingOps)
    (h : executeOperation C e t op = .ok r) : Lends C e t r := by
  have hother : ∀ {kinds : List UInt16},
      kinds.all (fun k => k ∉ lendingOps) = true → op.kind ∉ kinds :=
    fun hall hk => of_decide_eq_true (List.all_eq_true.1 hall _ hk) hkind
  have hne : ∀ {kind : UInt16}, kind ∉ lendingOps → op.kind ≠ kind :=
    fun hnot hk => hnot (hk ▸ hkind)
  rw [executeOperation, if_neg (hne (by decide)), if_neg (hne (by decide)),
    executeExtended, if_neg (hne (by decide)), if_neg (hne (by decide)),
    if_neg (hne (by decide)), if_neg (hne (by decide)),
    if_neg (hother (by decide))] at h
  split at h
  case isTrue => exact executeLending_lends h
  case isFalse =>
    rw [if_neg (hother (by decide))] at h
    split at h
    case isTrue => exact executeCrossShardLending_lends h
    case isFalse => cases h

/-- Lending neither makes nor loses native value: every input of an
accepted lending transaction is used up, and the inputs held what its
objects and messages hold and the fee. -/
theorem lending_conserves {op : Operation} (h : execute C e t = .ok r)
    (hop : t.operations = [op]) (hkind : op.kind ∈ lendingOps) :
    r.consumed.Perm (t.inputs.map InputRef.objectID) ∧
      sumOf (lentValue e.nativeToken) (t.objects.map Object.payload) =
        sumOf (lentValue e.nativeToken) r.produced + t.fee.toNat := by
  obtain ⟨hck, -⟩ := execute_leaves h
  simp only [execute, hop, ok_iff] at h
  rw [hck.enveloped.ids]
  exact (executeOperation_lends hkind h.2).conserves hck.enveloped.nodup

/-- An offer of five units that nobody has accepted yet. -/
def openOffer : Object where
  id := objectIDForShard shallowCrypto (Vector.replicate 32 9) 0 0
  version := 1
  owner := accountIDFromPublicKey shallowCrypto (List.replicate 65 1)
  kind := .loanOffer
  data := Terms.encode
    ⟨accountIDFromPublicKey shallowCrypto (List.replicate 65 1),
      Vector.replicate 32 8, 5, 0, 0, 10⟩

/-- The lender takes it back. -/
def cancelTransaction : Transaction :=
  { signed 1 ⟨Op.loanCancel,
      Writer.u16 lendingVersion ++ Writer.fixed openOffer.id⟩ with
    inputs := [⟨openOffer.id, 1, openOffer.hash shallowCrypto⟩]
    witnesses := [⟨openOffer, true, Bytes32.zero, []⟩] }

theorem lending_conserves_cancelled :
    ∃ r, execute shallowCrypto (sampleEngine (Vector.replicate 32 7))
        cancelTransaction = .ok r ∧
      sumOf (lentValue (Vector.replicate 32 7)) r.produced = 5 := by
  have hrun : (execute shallowCrypto (sampleEngine (Vector.replicate 32 7))
      cancelTransaction).isOk = true := by
    decide +kernel
  obtain ⟨r, hr⟩ := exists_of_isOk hrun
  have hheld : sumOf (lentValue (Vector.replicate 32 7))
      (cancelTransaction.objects.map Object.payload) = 5 := by
    decide +kernel
  have hkept := (lending_conserves hr rfl (by decide)).2
  exact ⟨r, hr, hkept.symm.trans hheld⟩

end ZephyrChain.Execution
