/-
What the transfer loop does to the accounts. A transfer takes the amount
from the sender and moves its nonce by one, then gives the amount to the
receiver; the two may be the same account. `transfer_eq_ok` reads a
successful transfer, the rest of the file follows a list of transfers:
the total balance stays, each balance changes by what the account
received and sent, and the nonces of a sender's transactions count up
from its account's nonce.
-/
import ZephyrChain.Ledger.Store
import ZephyrChain.Lib.FinmapTotal
import Mathlib.Tactic

namespace ZephyrChain.Ledger

open Lib

-- ==== arithmetic

theorem addUint64_eq_some {a b c : UInt64} :
    addUint64 a b = some c ↔ c.toNat = a.toNat + b.toNat := by
  unfold addUint64
  by_cases h : Overflows a b
  · have hsum := mt not_overflows_iff.2 (not_not.2 h)
    have hc := c.toNat_lt
    simp only [h, if_true, reduceCtorEq, false_iff]
    omega
  · simp only [h, if_false, Option.some.injEq]
    rw [← toNat_add_of_fits h]
    exact ⟨fun hc => congrArg UInt64.toNat hc.symm,
      fun hc => (UInt64.toNat_inj.1 hc).symm⟩

theorem toNat_saturatingAddUint64 (a b : UInt64) :
    (saturatingAddUint64 a b).toNat =
      min (a.toNat + b.toNat) (2 ^ 64 - 1) := by
  unfold saturatingAddUint64 addUint64
  by_cases h : Overflows a b
  · have hsum := mt not_overflows_iff.2 (not_not.2 h)
    rw [if_pos h, Nat.min_eq_right (by omega)]
    rfl
  · have hsum := not_overflows_iff.1 h
    rw [if_neg h, Option.getD_some, toNat_add_of_fits h,
      Nat.min_eq_left (by omega)]

theorem nextUint64_eq_some {a b : UInt64} :
    nextUint64 a = some b ↔ b.toNat = a.toNat + 1 := by
  have hmax : (UInt64.ofNat (2 ^ 64 - 1)).toNat = 2 ^ 64 - 1 := by decide
  have hone : (1 : UInt64).toNat = 1 := rfl
  unfold nextUint64
  by_cases h : a = UInt64.ofNat (2 ^ 64 - 1)
  · have hb := b.toNat_lt
    simp only [h, if_true, reduceCtorEq, false_iff, hmax]
    omega
  · have hlt : a.toNat + 1 < 2 ^ 64 := by
      have ha := a.toNat_lt
      have hne : a.toNat ≠ 2 ^ 64 - 1 := fun heq =>
        h (UInt64.toNat_inj.1 (heq.trans hmax.symm))
      omega
    have hadd : (a + 1).toNat = a.toNat + 1 := by
      rw [UInt64.toNat_add, hone, Nat.mod_eq_of_lt hlt]
    simp only [h, if_false, Option.some.injEq]
    rw [← hadd]
    exact ⟨fun hc => congrArg UInt64.toNat hc.symm,
      fun hc => (UInt64.toNat_inj.1 hc).symm⟩

-- ==== accounts

def balanceOf (accounts : Accounts) (address : Bytes) : Nat :=
  (accountAt accounts address).balance.toNat

def nonceOf (accounts : Accounts) (address : Bytes) : Nat :=
  (accountAt accounts address).nonce.toNat

/-- The exact sum of all balances. -/
def totalBalance (accounts : Accounts) : Nat :=
  total (fun a => a.balance.toNat) accounts

theorem accountAt_insert_self (accounts : Accounts) (address : Bytes)
    (balance nonce : UInt64) :
    accountAt (accounts.insert address ⟨address, balance, nonce⟩) address =
      ⟨address, balance, nonce⟩ := by
  simp [accountAt]

variable {accounts : Accounts}

theorem accountAt_insert_of_ne {address other : Bytes}
    (h : other ≠ address) (a : AccountState) :
    accountAt (accounts.insert address a) other =
      accountAt accounts other := by
  rw [accountAt, accountAt, Finmap.lookup_insert_of_ne _ h]

/-- A balance is what the entry of the account counts in the total. -/
theorem balanceOf_eq (accounts : Accounts) (address : Bytes) :
    balanceOf accounts address =
      (accounts.lookup address).elim 0 fun a => a.balance.toNat := by
  unfold balanceOf accountAt
  cases accounts.lookup address with
  | none => rfl
  | some a => rfl

theorem totalBalance_insert (accounts : Accounts) (address : Bytes)
    (a : AccountState) :
    totalBalance (accounts.insert address a) + balanceOf accounts address =
      totalBalance accounts + a.balance.toNat := by
  rw [balanceOf_eq]
  exact total_insert_add accounts address a

/-- The accounts after the sender's side of a transfer. -/
def debit (accounts : Accounts) (e : Envelope) : Accounts :=
  accounts.insert e.fromAddress
    ⟨e.fromAddress, (accountAt accounts e.fromAddress).balance - e.amount,
      e.nonce⟩

/-- The accounts after an amount has been added to one of them. -/
def deposit (accounts : Accounts) (address : Bytes) (amount : UInt64) :
    Accounts :=
  accounts.insert address
    ⟨address, (accountAt accounts address).balance + amount,
      (accountAt accounts address).nonce⟩

section deposit

variable {accounts : Accounts} {address : Bytes} {amount : UInt64}

theorem nonceOf_deposit (other : Bytes) :
    nonceOf (deposit accounts address amount) other =
      nonceOf accounts other := by
  by_cases hother : other = address
  · subst hother
    rw [nonceOf, deposit, accountAt_insert_self]
    rfl
  · rw [nonceOf, deposit, accountAt_insert_of_ne hother]
    rfl

theorem totalBalance_deposit
    (h : balanceOf accounts address + amount.toNat < 2 ^ 64) :
    totalBalance (deposit accounts address amount) =
      totalBalance accounts + amount.toNat := by
  have hinsert := totalBalance_insert accounts address
    ⟨address, (accountAt accounts address).balance + amount,
      (accountAt accounts address).nonce⟩
  have hsum : ((accountAt accounts address).balance + amount).toNat =
      balanceOf accounts address + amount.toNat :=
    toNat_add_of_fits (not_overflows_iff.2 h)
  simp only [hsum] at hinsert
  unfold deposit
  omega

end deposit

section debit

variable {accounts : Accounts} {e : Envelope}

theorem toNat_debited (h : e.amount.toNat ≤ balanceOf accounts e.fromAddress) :
    ((accountAt accounts e.fromAddress).balance - e.amount).toNat =
      balanceOf accounts e.fromAddress - e.amount.toNat :=
  UInt64.toNat_sub_of_le _ _ (UInt64.le_iff_toNat_le.2 h)

theorem nonceOf_debit (other : Bytes) :
    nonceOf (debit accounts e) other =
      if other = e.fromAddress then e.nonce.toNat
      else nonceOf accounts other := by
  by_cases hother : other = e.fromAddress
  · subst hother
    rw [nonceOf, debit, accountAt_insert_self, if_pos rfl]
  · rw [nonceOf, debit, accountAt_insert_of_ne hother, if_neg hother]
    rfl

theorem totalBalance_debit
    (h : e.amount.toNat ≤ balanceOf accounts e.fromAddress) :
    totalBalance (debit accounts e) + e.amount.toNat =
      totalBalance accounts := by
  have hinsert := totalBalance_insert accounts e.fromAddress
    ⟨e.fromAddress, (accountAt accounts e.fromAddress).balance - e.amount,
      e.nonce⟩
  simp only [toNat_debited h] at hinsert
  unfold debit
  omega

end debit

-- ==== transfers

/-- A transfer succeeds when it carries the sender's next nonce, the
sender has the amount and the receiver can hold it. -/
structure Transfers (accounts : Accounts) (e : Envelope) : Prop where
  nonce : e.nonce.toNat = nonceOf accounts e.fromAddress + 1
  funded : e.amount.toNat ≤ balanceOf accounts e.fromAddress
  fits : balanceOf (debit accounts e) e.toAddress + e.amount.toNat < 2 ^ 64

/-- The accounts after a transfer. -/
def transferred (accounts : Accounts) (e : Envelope) : Accounts :=
  deposit (debit accounts e) e.toAddress e.amount

variable {accounts' : Accounts}

theorem transfer_eq_ok {e : Envelope} :
    transfer accounts e = .ok accounts' ↔
      Transfers accounts e ∧ accounts' = transferred accounts e := by
  simp only [transfer, ok_iff, nextUint64_eq_some, addUint64_eq_some,
    not_or, not_not, UInt64.not_lt]
  constructor
  · rintro ⟨expected, hexpected, ⟨hfunded, hnonce⟩, balance, hbalance, heq⟩
    subst hnonce
    have hle := UInt64.le_iff_toNat_le.1 hfunded
    have hbalance : balance.toNat =
        balanceOf (debit accounts e) e.toAddress + e.amount.toNat := hbalance
    have hfits := hbalance ▸ balance.toNat_lt
    refine ⟨⟨hexpected, hle, hfits⟩, ?_⟩
    have hsum : balance =
        (accountAt (debit accounts e) e.toAddress).balance + e.amount := by
      apply UInt64.toNat_inj.1
      rw [toNat_add_of_fits (not_overflows_iff.2 hfits)]
      exact hbalance
    subst hsum
    exact heq.symm
  · rintro ⟨h, heq⟩
    refine ⟨e.nonce, h.nonce, ⟨UInt64.le_iff_toNat_le.2 h.funded, rfl⟩,
      (accountAt (debit accounts e) e.toAddress).balance + e.amount,
      toNat_add_of_fits (not_overflows_iff.2 h.fits), heq.symm⟩

section transferred

variable {accounts : Accounts} {e : Envelope} (h : Transfers accounts e)
include h

theorem totalBalance_transferred :
    totalBalance (transferred accounts e) = totalBalance accounts := by
  rw [transferred, totalBalance_deposit h.fits, totalBalance_debit h.funded]

theorem nonceOf_transferred (a : Bytes) :
    nonceOf (transferred accounts e) a =
      nonceOf accounts a + if a = e.fromAddress then 1 else 0 := by
  rw [transferred, nonceOf_deposit, nonceOf_debit]
  by_cases ha : a = e.fromAddress
  · rw [if_pos ha, if_pos ha, h.nonce, ha]
  · rw [if_neg ha, if_neg ha, Nat.add_zero]

end transferred

-- ==== runs

/-- The loop of an executor, without the checks around it. -/
def runTransfers (accounts : Accounts) (txs : List Envelope) :
    Except Error Accounts :=
  txs.foldlM transfer accounts

/-- The transactions an account has sent. -/
def sentBy (a : Bytes) (txs : List Envelope) : List Envelope :=
  txs.filter fun e => e.fromAddress = a

theorem sentBy_cons (a : Bytes) (e : Envelope) (txs : List Envelope) :
    sentBy a (e :: txs) =
      if e.fromAddress = a then e :: sentBy a txs else sentBy a txs := by
  by_cases h : e.fromAddress = a
  · simp [sentBy, h]
  · simp [sentBy, h]

variable {txs : List Envelope}

theorem runTransfers_cons {e : Envelope} :
    runTransfers accounts (e :: txs) = .ok accounts' ↔
      Transfers accounts e ∧
        runTransfers (transferred accounts e) txs = .ok accounts' := by
  simp only [runTransfers, List.foldlM_cons, bind_eq_ok, transfer_eq_ok]
  constructor
  · rintro ⟨_, ⟨h, rfl⟩, hrest⟩
    exact ⟨h, hrest⟩
  · rintro ⟨h, hrest⟩
    exact ⟨_, ⟨h, rfl⟩, hrest⟩

/-- Transfers move money and make none. -/
theorem runTransfers_total (h : runTransfers accounts txs = .ok accounts') :
    totalBalance accounts' = totalBalance accounts := by
  refine foldlM_invariant (fun s => totalBalance s = totalBalance accounts)
    ?_ txs accounts accounts' rfl h
  intro s e s' hs hstep
  obtain ⟨htransfer, rfl⟩ := transfer_eq_ok.1 hstep
  rw [totalBalance_transferred htransfer, hs]

/-- The nonces an account sends with count up from its own, which ends
with the last of them. -/
theorem runTransfers_nonces
    (h : runTransfers accounts txs = .ok accounts') (a : Bytes) :
    nonceOf accounts' a = nonceOf accounts a + (sentBy a txs).length ∧
      (sentBy a txs).map (fun e => e.nonce.toNat) =
        List.range' (nonceOf accounts a + 1) (sentBy a txs).length := by
  induction txs generalizing accounts with
  | nil =>
    simp only [runTransfers, List.foldlM_nil, pure_eq_ok] at h
    rw [h]
    exact ⟨rfl, rfl⟩
  | cons e txs ih =>
    obtain ⟨htransfer, hrest⟩ := runTransfers_cons.1 h
    obtain ⟨hnonce, hlist⟩ := ih hrest
    rw [nonceOf_transferred htransfer] at hnonce hlist
    rw [sentBy_cons]
    by_cases ha : e.fromAddress = a
    · rw [if_pos ha.symm] at hnonce hlist
      rw [if_pos ha, List.length_cons, List.map_cons, List.range'_succ,
        hlist, htransfer.nonce, ha]
      refine ⟨?_, rfl⟩
      omega
    · rw [if_neg (Ne.symm ha)] at hnonce hlist
      rw [if_neg ha]
      exact ⟨hnonce, hlist⟩

end ZephyrChain.Ledger
