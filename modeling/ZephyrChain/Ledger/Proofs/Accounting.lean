/-
The books of the account ledger. A history of credits, admissions,
produced and imported blocks and reopenings keeps, next to the node, the
credits that took effect. In every history the balances add up to those
credits, the nonce of an account counts the transactions it has in the
blocks, and the blocks are chained, numbered and without repetition.

# The invariant

`Books` is what one call preserves. The nonces of a sender's committed
transactions are exactly 1, 2, … up to the nonce of its account, from
which both the count and the uniqueness of (sender, nonce) follow; the
mempool takes part through `Consistent`, since a produced block commits
its entries without looking at the committed identifiers again.
-/
import ZephyrChain.Ledger.Proofs.Agreement
import ZephyrChain.Ledger.Sample

namespace ZephyrChain.Ledger

open Lib

-- ==== histories

/-- The calls of the ledger, without those of consensus. -/
inductive LedgerCall where
  | creditWithID (requestID address : Bytes) (amount : UInt64) (writes : Bool)
  | accept (e : Envelope) (now : Time) (writes : Bool)
  | produceBlock (maxTransactions : Int) (producedAt now : Time)
      (requireConsensus writes : Bool)
  | importBlock (b : Block) (requireConsensus writes : Bool)
  | reopen

def LedgerCall.toCall : LedgerCall → Call
  | .creditWithID requestID address amount writes =>
    .operation (.creditWithID requestID address amount) 0 writes
  | .accept e now writes => .operation (.accept e) now writes
  | .produceBlock maxTransactions producedAt now requireConsensus writes =>
    .operation (.produceBlock maxTransactions producedAt requireConsensus)
      now writes
  | .importBlock b requireConsensus writes =>
    .operation (.importBlock b requireConsensus) 0 writes
  | .reopen => .reopen

structure Credit where
  requestID : Bytes
  address : Bytes
  amount : UInt64
  deriving DecidableEq

/-- The credit a successful call has applied. -/
def LedgerCall.credits (s : PersistedState) : LedgerCall → List Credit
  | .creditWithID requestID address amount _ =>
    if requestID ≠ [] ∧ requestID ∈ s.appliedFundingIDs then []
    else [⟨requestID, address, amount⟩]
  | _ => []

/-- A node and the credits that have taken effect on it. -/
structure History where
  node : Node
  credits : List Credit

variable (H : Host) (reread : PersistedState → PersistedState)

def History.step (h : History) (c : LedgerCall) : History where
  node := (h.node.call H reread c.toCall).1
  credits :=
    if (h.node.call H reread c.toCall).2 = none then
      h.credits ++ c.credits h.node.store
    else h.credits

/-- A history on an empty store. -/
def History.run (chainID : Bytes) (calls : List LedgerCall) : History :=
  calls.foldl (History.step H reread)
    ⟨⟨emptyState chainID, emptyState chainID⟩, []⟩

-- ==== books

/-- The transactions of the chain in their order. -/
def committedTransactions (blocks : List Block) : List Envelope :=
  blocks.flatMap Block.transactions

/-- The exact sum of the credits. -/
def creditTotal (credits : List Credit) : Nat :=
  (credits.map fun c => c.amount.toNat).sum

/-- Every block has its number and the hash of the block before it. -/
def Chained (blocks : List Block) : Prop :=
  ∀ i b, blocks[i]? = some b →
    b.height = i + 1 ∧ b.previousHash = latestHash (blocks.take i)

variable {b : Block}

theorem Chained.append {blocks : List Block} (h : Chained blocks)
    (hheight : b.height = blocks.length + 1)
    (hlink : b.previousHash = latestHash blocks) :
    Chained (blocks ++ [b]) := by
  intro i b' hb'
  rw [List.getElem?_append] at hb'
  split at hb'
  case isTrue hi =>
    obtain ⟨hnumber, hprevious⟩ := h i b' hb'
    rw [List.take_append_of_le_length hi.le]
    exact ⟨hnumber, hprevious⟩
  case isFalse hi =>
    have hzero : i - blocks.length = 0 := by
      by_contra hne
      rw [List.getElem?_singleton, if_neg hne] at hb'
      cases hb'
    have hi : i = blocks.length := by omega
    subst hi
    rw [hzero] at hb'
    obtain rfl := Option.some.inj hb'
    rw [List.take_append_of_le_length (Nat.le_refl _), List.take_length]
    exact ⟨hheight, hlink⟩

structure Books (H : Host) (credits : List Credit) (s : PersistedState) :
    Prop where
  consistent : Consistent H s
  balances : totalBalance s.accounts = creditTotal credits
  funding : ∀ id, id ∈ s.appliedFundingIDs ↔
    id ≠ [] ∧ id ∈ credits.map Credit.requestID
  requests : ((credits.map Credit.requestID).filter (· ≠ [])).Nodup
  nonces : ∀ a, (sentBy a (committedTransactions s.blocks)).map
    (fun e => e.nonce.toNat) = List.range' 1 (nonceOf s.accounts a)
  chained : Chained s.blocks
  committed : s.committedTransactionIDs = committedIDsFromBlocks s.blocks
  disjoint : (s.blocks.map Block.transactionIDs).Pairwise List.Disjoint

variable {H reread} {credits : List Credit} {s s' : PersistedState}

theorem Books.of_same (h : Books H credits s) (hsame : SameLedger s s') :
    Books H credits s' := by
  refine ⟨h.consistent.of_same hsame, ?_, ?_, h.requests, ?_, ?_, ?_, ?_⟩
  · rw [hsame.accounts]
    exact h.balances
  · rw [hsame.funding]
    exact h.funding
  · rw [hsame.accounts, hsame.blocks]
    exact h.nonces
  · rw [hsame.blocks]
    exact h.chained
  · rw [hsame.committed, hsame.blocks]
    exact h.committed
  · rw [hsame.blocks]
    exact h.disjoint

theorem Books.credited {requestID address : Bytes} {amount : UInt64}
    (h : Books H credits s)
    (hcredit : creditWithID s requestID address amount = .ok (some s')) :
    Books H (credits ++ [⟨requestID, address, amount⟩]) s' := by
  have hcons := h.consistent.step (.credited requestID address amount hcredit)
  obtain ⟨hnew, hfits, rfl⟩ := creditWithID_eq_ok.1 hcredit
  have hids : (credits ++ [Credit.mk requestID address amount]).map
      Credit.requestID = credits.map Credit.requestID ++ [requestID] := by
    rw [List.map_append]
    rfl
  refine ⟨hcons, ?_, ?_, ?_, ?_, h.chained, h.committed, h.disjoint⟩
  · show totalBalance (deposit s.accounts address amount) = _
    rw [totalBalance_deposit hfits, h.balances]
    simp [creditTotal]
  · intro id
    show id ∈ (if requestID ≠ [] then insert requestID s.appliedFundingIDs
      else s.appliedFundingIDs) ↔ _
    rw [hids, List.mem_append, List.mem_singleton]
    by_cases hempty : requestID = []
    · rw [if_neg (not_not.2 hempty), h.funding, hempty]
      constructor
      · exact fun ⟨hne, hmem⟩ => ⟨hne, .inl hmem⟩
      · intro ⟨hne, hmem⟩
        exact ⟨hne, hmem.resolve_right hne⟩
    · rw [if_pos hempty, Finset.mem_insert, h.funding]
      constructor
      · intro hmem
        rcases hmem with rfl | ⟨hne, hmem⟩
        · exact ⟨hempty, .inr rfl⟩
        · exact ⟨hne, .inl hmem⟩
      · intro ⟨hne, hmem⟩
        rcases hmem with hmem | rfl
        · exact .inr ⟨hne, hmem⟩
        · exact .inl rfl
  · rw [hids, List.filter_append]
    by_cases hempty : requestID = []
    · simpa [hempty] using h.requests
    · -- a request that was applied before is not applied again
      have hfresh : requestID ∉ credits.map Credit.requestID := fun hmem =>
        hnew ⟨hempty, (h.funding requestID).2 ⟨hempty, hmem⟩⟩
      have hsingle : [requestID].filter (· ≠ []) = [requestID] := by
        simp [hempty]
      rw [hsingle, List.nodup_append]
      refine ⟨h.requests, List.nodup_singleton _, ?_⟩
      intro id hid id' hid'
      rw [List.mem_singleton.1 hid']
      intro heq
      exact hfresh (heq ▸ (List.mem_filter.1 hid).1)
  · intro a
    show _ = List.range' 1 (nonceOf (deposit s.accounts address amount) a)
    rw [nonceOf_deposit]
    exact h.nonces a

theorem accountAt_insert_accountAt (accounts : Accounts) (a other : Bytes) :
    accountAt (accounts.insert a (accountAt accounts a)) other =
      accountAt accounts other := by
  by_cases hother : other = a
  · subst hother
    exact accountAt_insert_self accounts other _ _
  · exact accountAt_insert_of_ne hother _

theorem Books.accepted {e : Envelope} {now : Time} (h : Books H credits s)
    (haccept : accept H s e now = .ok s') : Books H credits s' := by
  have hcons := h.consistent.accepted haccept
  obtain ⟨-, -, -, rfl⟩ := accept_eq_ok.1 haccept
  refine ⟨hcons, ?_, h.funding, h.requests, ?_, h.chained, h.committed,
    h.disjoint⟩
  · have hinsert := totalBalance_insert s.accounts e.fromAddress
      (accountAt s.accounts e.fromAddress)
    show totalBalance (s.accounts.insert e.fromAddress
      (accountAt s.accounts e.fromAddress)) = _
    rw [← h.balances]
    unfold balanceOf at hinsert
    omega
  · intro a
    show _ = List.range' 1 (nonceOf (s.accounts.insert e.fromAddress
      (accountAt s.accounts e.fromAddress)) a)
    rw [nonceOf, accountAt_insert_accountAt]
    exact h.nonces a

/-- A block whose transactions ran and whose identifiers are new. -/
theorem Books.extended {accounts : Accounts} {mempool : List MempoolEntry}
    (h : Books H credits s)
    (hcons : Consistent H (Ledger.extended s accounts mempool b))
    (hrun : runTransfers s.accounts b.transactions = .ok accounts)
    (hheight : b.height = s.blocks.length + 1)
    (hlink : b.previousHash = latestHash s.blocks)
    (hfresh : ∀ id ∈ b.transactionIDs, id ∉ s.committedTransactionIDs) :
    Books H credits (Ledger.extended s accounts mempool b) := by
  refine ⟨hcons, ?_, h.funding, h.requests, ?_,
    h.chained.append hheight hlink, ?_, ?_⟩
  · show totalBalance accounts = _
    rw [runTransfers_total hrun, h.balances]
  · intro a
    obtain ⟨hnonce, hlist⟩ := runTransfers_nonces hrun a
    show (sentBy a (committedTransactions (s.blocks ++ [b]))).map _ =
      List.range' 1 (nonceOf accounts a)
    have hsplit : sentBy a (committedTransactions (s.blocks ++ [b])) =
        sentBy a (committedTransactions s.blocks) ++
          sentBy a b.transactions := by
      simp [sentBy, committedTransactions]
    rw [hsplit, List.map_append, h.nonces a, hlist, hnonce,
      Nat.add_comm (nonceOf s.accounts a) 1, List.range'_append_1]
  · show s.committedTransactionIDs ∪ b.transactionIDs.toFinset = _
    rw [h.committed]
    simp [committedIDsFromBlocks, Ledger.extended]
  · show ((s.blocks ++ [b]).map Block.transactionIDs).Pairwise List.Disjoint
    rw [List.map_append, List.pairwise_append]
    refine ⟨h.disjoint, List.pairwise_singleton _ _, ?_⟩
    intro ids hids ids' hids' id hid hid'
    rw [List.mem_singleton.1 hids'] at hid'
    refine hfresh id hid' ?_
    rw [h.committed, committedIDsFromBlocks, List.mem_toFinset,
      List.mem_flatMap]
    obtain ⟨old, hold, rfl⟩ := List.mem_map.1 hids
    exact ⟨old, hold, hid⟩

variable {chainID : Bytes}

theorem Books.produced {maxTransactions : Int} {producedAt now : Time}
    (h : Books H credits s)
    (hproduce : produceBlockFromState H s maxTransactions producedAt now
      chainID = .ok (s', b)) : Books H credits s' := by
  have hcons := h.consistent.produced hproduce
  obtain ⟨-, accounts, root, hrun, -, rfl, rfl⟩ :=
    produceBlockFromState_eq_ok.1 hproduce
  refine h.extended hcons hrun ?_ rfl ?_
  · show lastHeight s.blocks + 1 = _
    rw [h.consistent.height]
  · intro id hid
    obtain ⟨entry, hentry, rfl⟩ := List.mem_map.1 hid
    exact h.consistent.fresh entry (List.mem_of_mem_take hentry)

theorem Books.imported (h : Books H credits s)
    (himport : importBlockIntoState H s b chainID = .ok s') :
    Books H credits s' := by
  have hcons := h.consistent.imported himport
  obtain ⟨-, ⟨-, -, rfl⟩ | ⟨accounts, himports⟩⟩ :=
    importBlockIntoState_eq_ok.1 himport
  · exact h.of_same (sameLedger_normalizeState s)
  · rw [himports.state] at hcons ⊢
    refine h.extended hcons himports.run himports.height himports.link ?_
    rw [himports.ids]
    intro id hid
    obtain ⟨e, he, rfl⟩ := List.mem_map.1 hid
    exact (himports.fresh e he).2

-- ==== runs

variable {h : History}

/-- A call that credits nothing keeps the books if what it writes does. -/
theorem Books.call (hbooks : Books H h.credits h.node.store)
    (hstable : h.node.Stable) {c : LedgerCall}
    (hread : h.node.Rereads reread c.toCall)
    (hcredits : c.credits h.node.store = [])
    (hwrite : ∀ op now next, c.toCall = .operation op now true →
      Operation.next H h.node.store now op = .ok (some next) →
      Books H h.credits next) :
    Books H (h.credits ++ c.credits h.node.store)
      (h.node.call H reread c.toCall).1.store := by
  rw [hcredits, List.append_nil]
  rcases call_cases (H := H) hstable hread with
    heq | ⟨op, now, next, hop, hnext, heq⟩
  · rw [heq]
    exact hbooks
  · rw [heq]
    exact (hwrite op now next hop hnext).of_same
      (sameLedger_normalizeState next)

theorem Books.creditCall (hbooks : Books H h.credits h.node.store)
    {requestID address : Bytes} {amount : UInt64} {writes : Bool}
    (hok : (h.node.call H reread (LedgerCall.toCall
      (.creditWithID requestID address amount writes))).2 = none) :
    Books H (h.credits ++ LedgerCall.credits h.node.store
        (.creditWithID requestID address amount writes))
      (h.node.call H reread (LedgerCall.toCall
        (.creditWithID requestID address amount writes))).1.store := by
  simp only [LedgerCall.toCall, Node.call, Operation.next,
    LedgerCall.credits] at hok ⊢
  cases hcredit : creditWithID h.node.store requestID address amount with
  | error e => simp [hcredit] at hok
  | ok written =>
    simp only [hcredit] at hok ⊢
    cases written with
    | none =>
      -- nothing is written for a request that has been applied
      have hdone : requestID ≠ [] ∧
          requestID ∈ h.node.store.appliedFundingIDs := by
        by_contra hnot
        simp only [creditWithID, if_neg hnot, ok_iff] at hcredit
        obtain ⟨_, _, hnone⟩ := hcredit
        cases hnone
      simpa [hdone] using hbooks
    | some next =>
      have hnew := (creditWithID_eq_ok.1 hcredit).1
      cases writes with
      | false => simp at hok
      | true =>
        simp only [if_neg hnew, if_true]
        exact (hbooks.credited hcredit).of_same
          (sameLedger_normalizeState next)

/-- One call of a history keeps the books. -/
theorem Books.step (hbooks : Books H h.credits h.node.store)
    (hstable : h.node.Stable) (c : LedgerCall)
    (hread : h.node.Rereads reread c.toCall) :
    Books H (h.step H reread c).credits (h.step H reread c).node.store := by
  by_cases hok : (h.node.call H reread c.toCall).2 = none
  swap
  · have hsame := Node.call_error h.node c.toCall hok
    simp only [History.step, hok, if_false, hsame]
    exact hbooks
  simp only [History.step, hok, if_true]
  cases c with
  | creditWithID requestID address amount writes => exact hbooks.creditCall hok
  | reopen =>
    refine hbooks.call hstable hread rfl fun op now next hop _ => ?_
    cases hop
  | accept e now writes =>
    refine hbooks.call hstable hread rfl fun op now next hop hnext => ?_
    cases hop
    have hmid := map_some_eq_ok.1 hnext
    exact hbooks.accepted hmid
  | produceBlock maxTransactions producedAt now requireConsensus writes =>
    refine hbooks.call hstable hread rfl fun op now next hop hnext => ?_
    cases hop
    have hmid := map_some_eq_ok.1 hnext
    rcases produceBlockWithOptions_cases hmid with ⟨b, hb⟩ | ⟨b, hb⟩
    · exact hbooks.produced hb
    · exact hbooks.imported hb
  | importBlock b requireConsensus writes =>
    refine hbooks.call hstable hread rfl fun op now next hop hnext => ?_
    cases hop
    have hmid := map_some_eq_ok.1 hnext
    exact hbooks.imported (importBlockWithOptions_import hmid)

end ZephyrChain.Ledger
