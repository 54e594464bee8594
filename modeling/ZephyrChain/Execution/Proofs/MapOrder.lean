/-
The order in which Go visits a map does not decide what a transaction
does.

# What holds

In every order a transaction is accepted or refused alike, and what it
consumes and creates is the same up to the order of the two lists
(`executeIn_agrees`). Four loops depend on the order; each is read once:

- balancing a transfer and adding up a settlement touch the entry of one
  key at a time (`Lib.OwnKey`);
- a strict majority is unique, whatever root is counted first;
- what a contract wrote is listed in the order it is visited.

# What does not

Which error refuses a transfer: with two input tokens that are both out
of balance in different ways, the one visited first is reported.
-/
import ZephyrChain.Execution.MapOrder
import ZephyrChain.Execution.Proofs.Transfer

namespace ZephyrChain.Execution

open Lib

variable {C : Crypto} {e : Engine} {t : Transaction}

-- ==== results

/-- Equal up to the order of what is consumed and created. -/
structure SameResult (r r' : Result) : Prop where
  consumed : r.consumed.Perm r'.consumed
  created : r.created.Perm r'.created
  outbound : r.outbound = r'.outbound
  txID : r.txID = r'.txID

theorem SameResult.refl (r : Result) : SameResult r r :=
  ⟨.refl _, .refl _, rfl, rfl⟩

theorem SameResult.symm {r r' : Result} (h : SameResult r r') :
    SameResult r' r :=
  ⟨h.consumed.symm, h.created.symm, h.outbound.symm, h.txID.symm⟩

theorem SameResult.trans {r r' r'' : Result} (h : SameResult r r')
    (h' : SameResult r' r'') : SameResult r r'' :=
  ⟨h.consumed.trans h'.consumed, h.created.trans h'.created,
    h.outbound.trans h'.outbound, h.txID.trans h'.txID⟩

-- ==== transfers

/-- The check on one input token. -/
def balanceCheck (e : Engine) (t : Transaction) (definitions : Definitions)
    (entry : Σ _ : TokenID, UInt64) (required : UInt64) :
    Except Error Unit :=
  if entry.1 = e.nativeToken then do
    refuse (Overflows required t.fee) .overflow
    refuse (entry.2 ≠ required + t.fee) .conservation
  else do
    refuse (transferable definitions entry.1 = false) .tokenPolicy
    refuse (entry.2 ≠ required) .conservation

theorem balanceStep_eq (definitions : Definitions) (left : Totals)
    (entry : Σ _ : TokenID, UInt64) :
    balanceStep e t definitions left entry =
      balanceCheck e t definitions entry (left.get entry.1) >>=
        fun _ => .ok (left.erase entry.1) := by
  obtain ⟨token, amount⟩ := entry
  unfold balanceStep balanceCheck
  simp only
  split
  case isTrue => simp only [bind_assoc]; rfl
  case isFalse => simp only [bind_assoc]; rfl

theorem ownKey_balanceStep (e : Engine) (t : Transaction)
    (definitions : Definitions) :
    OwnKey (balanceStep e t definitions) fun entry required =>
      balanceCheck e t definitions entry (required.getD 0) >>=
        fun _ => .ok none where
  ok := by
    intro left left' entry h
    rw [balanceStep_eq] at h
    simp only [ok_iff, Except.ok.injEq] at h
    obtain ⟨hcheck, rfl⟩ := h
    refine ⟨none, ?_, fun token => ?_⟩
    · show balanceCheck e t definitions entry (Totals.get left entry.1) >>= _ =
        _
      rw [hcheck]
      rfl
    · split
      case isTrue heq => rw [heq, AList.lookup_erase]
      case isFalse hne => rw [AList.lookup_erase_ne hne]
  total := by
    intro left entry b h
    simp only [ok_iff] at h
    obtain ⟨hcheck, -⟩ := h
    refine ⟨left.erase entry.1, ?_⟩
    rw [balanceStep_eq, Totals.get, hcheck]
    rfl

theorem executeTransferIn_agrees (order : MapOrder) :
    Agree SameResult (executeTransferIn C order e t)
      (executeTransfer C e t) := by
  unfold executeTransferIn executeTransfer
  refine agree_bind _ fun inputs => agree_bind _ fun outputs => ?_
  have hsame : SameMap outputs.outputTotals outputs.outputTotals :=
    fun _ => rfl
  have hloop := (ownKey_balanceStep e t inputs.definitions).agree_reorder
    order 0 inputs.inputTotals hsame
  refine hloop.bind fun left left' hleft => ?_
  rw [hleft.entries.length_eq]
  exact agree_refl SameResult.refl _

-- ==== contracts

/-- The guard around an engine does not look at the order of the writes. -/
theorem meteredExecute_reorder (order : MapOrder) (runtime : Runtime)
    (request : Request) :
    Agree (fun result result' => result = reorderWrites order result')
      ((reorderRuntime order runtime).meteredExecute request)
      (runtime.meteredExecute request) := by
  unfold Runtime.meteredExecute
  refine agree_bind _ fun _ => agree_ite _ ?_
  refine (agree_map (reorderWrites order) _).bind ?_
  rintro _ result rfl
  refine agree_bind _ fun _ => agree_bind _ fun _ => agree_bind _ fun _ => ?_
  have hkeys : (∃ id ∈ (reorderWrites order result).writes.keys,
      ⟨id, true⟩ ∉ request.accesses) ↔
        ∃ id ∈ result.writes.keys, ⟨id, true⟩ ∉ request.accesses := by
    refine exists_congr fun id => and_congr_left fun _ => ?_
    exact (order.keys_reorder 0 result.writes).mem_iff
  exact agree_refuse _ _ hkeys fun _ => rfl

theorem contractRuntime_reorder (order : MapOrder) (name : Bytes) :
    contractRuntime (e.reorder order) name =
      (contractRuntime e name).map (reorderRuntime order) := by
  unfold contractRuntime Engine.reorder
  simp only
  cases e.contractRuntimes name with
  | some runtime => rfl
  | none =>
    simp only [Option.map_none]
    split
    case isTrue => rfl
    case isFalse => rfl

theorem executeContractCall_reorder (order : MapOrder) (payload : Bytes) :
    Agree SameResult (executeContractCall C (e.reorder order) t payload)
      (executeContractCall C e t payload) := by
  unfold executeContractCall
  refine agree_bind _ fun call => agree_bind _ fun contract =>
    agree_bind _ fun _ => agree_bind _ fun stored => ?_
  rw [contractRuntime_reorder]
  cases contractRuntime e stored.deployment.runtime with
  | none => trivial
  | some runtime =>
    rw [Option.map_some]
    unfold require
    rw [ok_bind, ok_bind]
    refine agree_bind _ fun values => ?_
    refine (meteredExecute_reorder order runtime _).bind ?_
    rintro _ result rfl
    refine agree_bind _ fun outputs => ?_
    obtain ⟨created, consumed⟩ := outputs
    refine ⟨?_, ?_, rfl, rfl⟩
    · exact (order.keys_reorder 0 result.writes).append_left consumed
    · refine List.Perm.append_right _ (List.Perm.append_left created ?_)
      exact (order.entries_reorder 0 result.writes).map _

-- ==== majorities

/-- The entry with the highest count, the first visited among equals. -/
theorem best_spec (entries : List (Σ _ : Hash, Nat)) (start : Hash × Nat) :
    let best := entries.foldl (fun best entry =>
      if best.2 < entry.2 then (entry.1, entry.2) else best) start
    start.2 ≤ best.2 ∧ (∀ entry ∈ entries, entry.2 ≤ best.2) ∧
      (best = start ∨ (⟨best.1, best.2⟩ : Σ _ : Hash, Nat) ∈ entries) := by
  induction entries generalizing start with
  | nil => exact ⟨le_refl _, by simp, .inl rfl⟩
  | cons entry entries ih =>
    simp only [List.foldl_cons]
    split
    case isTrue hlt =>
      obtain ⟨hstart, hall, hbest⟩ := ih (entry.1, entry.2)
      refine ⟨hlt.le.trans hstart, List.forall_mem_cons.2 ⟨hstart, hall⟩,
        .inr ?_⟩
      rcases hbest with heq | hmem
      · rw [heq]
        exact List.mem_cons_self
      · exact List.mem_cons_of_mem _ hmem
    case isFalse hle =>
      obtain ⟨hstart, hall, hbest⟩ := ih start
      refine ⟨hstart, List.forall_mem_cons.2
        ⟨(Nat.le_of_not_lt hle).trans hstart, hall⟩, ?_⟩
      exact hbest.imp_right (List.mem_cons_of_mem _)

/-- How many results report a root. -/
def reports (results : List ComputeResult) (root : Hash) : Nat :=
  results.countP fun result => result.resultRoot = root

theorem getD_lookup_rootCounts (results : List ComputeResult)
    (counts : AList fun _ : Hash => Nat) (root : Hash) :
    ((results.foldl (fun m r => m.insert r.resultRoot
      ((m.lookup r.resultRoot).getD 0 + 1)) counts).lookup root).getD 0 =
      (counts.lookup root).getD 0 + reports results root := by
  unfold reports
  induction results generalizing counts with
  | nil => rfl
  | cons result results ih =>
    rw [List.foldl_cons, ih, List.countP_cons]
    by_cases heq : root = result.resultRoot
    · subst heq
      simp only [AList.lookup_insert, Option.getD_some, decide_true, if_true]
      omega
    · have hne : ¬ result.resultRoot = root := fun h => heq h.symm
      simp [AList.lookup_insert_ne heq, hne]

variable {results : List ComputeResult}

theorem count_of_mem {entry : Σ _ : Hash, Nat}
    (h : entry ∈ (rootCounts results).entries) :
    entry.2 = reports results entry.1 := by
  have hcount := getD_lookup_rootCounts results ∅ entry.1
  have hlookup : (rootCounts results).lookup entry.1 = some entry.2 :=
    AList.mem_lookup_iff.2 h
  rw [rootCounts] at hlookup
  rw [hlookup, AList.lookup_empty] at hcount
  simpa using hcount

/-- Two roots cannot both be reported by more than half. -/
theorem majority_unique {root root' : Hash}
    (h : results.length < reports results root * 2)
    (h' : results.length < reports results root' * 2) : root = root' := by
  by_contra hne
  have hother : reports results root' ≤
      results.countP fun result => ¬ result.resultRoot = root := by
    refine List.countP_mono_left fun result _ hroot' => ?_
    simp only [decide_eq_true_eq] at hroot' ⊢
    exact fun hroot => hne (hroot.symm.trans hroot')
  have hsum := List.length_eq_countP_add_countP (l := results)
    fun result : ComputeResult => decide (result.resultRoot = root)
  simp only [decide_eq_true_eq] at hsum
  unfold reports at h h' hother
  simp only [decide_not] at hother hsum
  omega

/-- A root with the highest count. -/
structure IsBest (results : List ComputeResult) (best : Hash × Nat) :
    Prop where
  highest : ∀ entry ∈ (rootCounts results).entries, entry.2 ≤ best.2
  counted : best.2 = 0 ∨
    (⟨best.1, best.2⟩ : Σ _ : Hash, Nat) ∈ (rootCounts results).entries

theorem isBest_of_perm {entries : List (Σ _ : Hash, Nat)}
    (hp : entries.Perm (rootCounts results).entries) :
    IsBest results (entries.foldl (fun best entry =>
      if best.2 < entry.2 then (entry.1, entry.2) else best)
        (Bytes32.zero, 0)) := by
  obtain ⟨-, hall, hbest⟩ := best_spec entries (Bytes32.zero, 0)
  refine ⟨fun entry hmem => hall entry (hp.mem_iff.2 hmem), ?_⟩
  rcases hbest with heq | hmem
  · left
    rw [heq]
  · exact .inr (hp.mem_iff.1 hmem)

/-- The highest count is one number, and a strict majority has one
root. -/
theorem IsBest.unique {best best' : Hash × Nat} (h : IsBest results best)
    (h' : IsBest results best') :
    best.2 = best'.2 ∧
      (results.length < best'.2 * 2 → best.1 = best'.1) := by
  have hle : best.2 ≤ best'.2 :=
    h.counted.elim (fun hzero => hzero ▸ Nat.zero_le _) (h'.highest _)
  have hge : best'.2 ≤ best.2 :=
    h'.counted.elim (fun hzero => hzero ▸ Nat.zero_le _) (h.highest _)
  have heq : best.2 = best'.2 := le_antisymm hle hge
  refine ⟨heq, fun hmajority => ?_⟩
  have hmem := h.counted.resolve_left (by omega)
  have hmem' := h'.counted.resolve_left (by omega)
  have hcount : best.2 = reports results best.1 := count_of_mem hmem
  have hcount' : best'.2 = reports results best'.1 := count_of_mem hmem'
  have hmost : results.length < reports results best.1 * 2 := by omega
  have hmost' : results.length < reports results best'.1 * 2 := by omega
  exact majority_unique hmost hmost'

theorem resolveReplicatedMajorityIn_eq (order : MapOrder)
    (record : OnChainJob) :
    resolveReplicatedMajorityIn order record =
      resolveReplicatedMajority record := by
  have hbest : IsBest record.results (majorityRootIn order record.results) :=
    isBest_of_perm (order.entries_reorder 0 _)
  have hbest' : IsBest record.results (majorityRoot record.results) :=
    isBest_of_perm (.refl _)
  obtain ⟨hcount, hroot⟩ := hbest.unique hbest'
  unfold resolveReplicatedMajorityIn resolveReplicatedMajority
  simp only
  rw [hcount]
  by_cases hfew : (majorityRoot record.results).2 * 2 ≤
      record.results.length
  · rw [refuse_of _ hfew]
    rfl
  · rw [hroot (Nat.lt_of_not_le hfew)]

-- ==== settlements

theorem lookup_add (m : Amounts) (id : AccountID) (value : UInt64)
    (k : AccountID) :
    (m.add id value).lookup k =
      if k = id then some ((m.lookup id).getD 0 + value)
      else m.lookup k := by
  unfold Amounts.add Amounts.get
  split
  case isTrue heq => rw [heq, AList.lookup_insert]
  case isFalse hne => rw [AList.lookup_insert_ne hne]

theorem ownKey_add : OwnKey
    (fun (m : Amounts) entry =>
      (pure (m.add entry.1 entry.2) : Except Error Amounts))
    fun (entry : Σ _ : AccountID, UInt64) amount =>
      .ok (some (amount.getD 0 + entry.2)) where
  ok := by
    intro m m' entry h
    obtain rfl := (pure_eq_ok _ _).1 h
    exact ⟨_, rfl, lookup_add m entry.1 entry.2⟩
  total := fun _ => ⟨_, rfl⟩

theorem ownKey_addChecked : OwnKey
    (fun (m : Amounts) (entry : Σ _ : AccountID, UInt64) => do
      refuse (Overflows (m.get entry.1) entry.2) Error.overflow
      return m.add entry.1 entry.2)
    fun entry amount => do
      refuse (Overflows (amount.getD 0) entry.2) Error.overflow
      return some (amount.getD 0 + entry.2) where
  ok := by
    intro m m' entry h
    simp only [ok_iff] at h
    obtain ⟨hfits, rfl⟩ := h
    refine ⟨some _, ?_, lookup_add m entry.1 entry.2⟩
    rw [Amounts.get] at hfits
    rw [refuse_of_not _ hfits]
    rfl
  total := by
    intro m entry b h
    simp only [ok_iff] at h
    refine ⟨Amounts.add m entry.1 entry.2, ?_⟩
    rw [Amounts.get, refuse_of_not _ h.1]
    rfl

/-- The amounts each account receives, in every order of the loops. -/
theorem settlementAmounts_reorder (order : MapOrder) (record : OnChainJob)
    (settlement : OnChainSettlement) :
    Agree SameMap
      (settlementAmounts record (reorderAmounts order settlement))
      (settlementAmounts record settlement) := by
  have hpaid := ownKey_add.agree_reorder order 1 settlement.payments
    (fun _ => rfl : SameMap (∅ : Amounts) ∅)
  rw [List.foldlM_pure, List.foldlM_pure] at hpaid
  unfold settlementAmounts reorderAmounts
  simp only
  refine (ownKey_addChecked.agree_reorder order 2
    settlement.collateralReturns hpaid).bind fun m m' hsame => ?_
  refine agree_bind _ fun _ => ?_
  split
  case isTrue =>
    intro k
    rw [lookup_add, lookup_add, hsame k, hsame record.job.owner]
  case isFalse => exact hsame

theorem settlementOutputs_reorder (order : MapOrder) (record : OnChainJob)
    (settlement : OnChainSettlement) :
    Agree Eq
      (settlementOutputs C e t record (reorderAmounts order settlement))
      (settlementOutputs C e t record settlement) := by
  unfold settlementOutputs
  refine (settlementAmounts_reorder order record settlement).bind
    fun amounts amounts' hsame => ?_
  have hids : amounts.keys.insertionSort Bytes32.Before =
      amounts'.keys.insertionSort Bytes32.Before := by
    have hp := ((List.perm_insertionSort Bytes32.Before amounts.keys).trans
      hsame.keys).trans
        (List.perm_insertionSort Bytes32.Before amounts'.keys).symm
    exact hp.eq_of_pairwise' (List.pairwise_insertionSort _ _)
      (List.pairwise_insertionSort _ _)
  have hpay : payStep C e t amounts = payStep C e t amounts' := by
    funext s payee
    have hamount : Amounts.get amounts payee.1 =
        Amounts.get amounts' payee.1 := by
      rw [Amounts.get, Amounts.get, hsame payee.1]
    unfold payStep
    simp only
    rw [hamount]
  rw [hids, hpay]
  exact agree_refl (fun _ => rfl) _

theorem settle_reorder (order : MapOrder) (jobObject : Object)
    (record : OnChainJob) (settlement : OnChainSettlement)
    (receipt : SettlementReceipt) :
    Agree SameResult
      (settle C e t jobObject record (reorderAmounts order settlement)
        receipt)
      (settle C e t jobObject record settlement receipt) := by
  unfold settle
  refine agree_bind _ fun locked => ?_
  have houtputs :=
    settlementOutputs_reorder (C := C) (e := e) (t := t) order record
      settlement
  refine (houtputs.failWith Error.marketEscrow).bind ?_
  rintro _ generated rfl
  exact agree_refl SameResult.refl _

theorem executeComputeFinalizeIn_agrees (order : MapOrder)
    (payload : Bytes) (majority : Bool) :
    Agree SameResult (executeComputeFinalizeIn C order e t payload majority)
      (executeComputeFinalize C e t payload majority) := by
  unfold executeComputeFinalizeIn executeComputeFinalize
  refine agree_bind _ fun _ => agree_bind _ fun jobObject =>
    agree_bind _ fun record => agree_bind _ fun _ => ?_
  have hsettlement : settlementOfIn order record majority =
      settlementOf record majority := by
    unfold settlementOfIn settlementOf
    rw [resolveReplicatedMajorityIn_eq]
  rw [hsettlement]
  exact agree_bind _ fun s => settle_reorder order jobObject record s.2 _

theorem executeComputeExpireIn_agrees (order : MapOrder)
    (payload : Bytes) :
    Agree SameResult (executeComputeExpireIn C order e t payload)
      (executeComputeExpire C e t payload) := by
  unfold executeComputeExpireIn executeComputeExpire
  refine agree_bind _ fun _ => agree_bind _ fun jobObject =>
    agree_bind _ fun record => agree_bind _ fun expired => ?_
  exact settle_reorder order jobObject record _ _

-- ==== transactions

theorem executeOperationIn_agrees (order : MapOrder) {op : Operation} :
    Agree SameResult (executeOperationIn C order e t op)
      (executeOperation C e t op) := by
  unfold executeOperationIn
  split
  case isTrue hk =>
    rw [executeOperation, if_pos hk]
    exact executeTransferIn_agrees order
  split
  case isTrue hk =>
    rw [executeOperation, executeExtended, hk]
    exact executeContractCall_reorder order op.payload
  split
  case isTrue hk =>
    rw [executeOperation, executeExtended, executeCompute, hk]
    exact executeComputeFinalizeIn_agrees order op.payload false
  split
  case isTrue hk =>
    rw [executeOperation, executeExtended, executeCompute, hk]
    exact executeComputeFinalizeIn_agrees order op.payload true
  split
  case isTrue hk =>
    rw [executeOperation, executeExtended, executeCompute, hk]
    exact executeComputeExpireIn_agrees order op.payload
  case isFalse => exact agree_refl SameResult.refl _

/-- A transaction does the same in every order of the map loops. -/
theorem executeIn_agrees (C : Crypto) (order : MapOrder) (e : Engine)
    (t : Transaction) :
    Agree SameResult (executeIn C order e t) (execute C e t) := by
  unfold executeIn execute
  refine agree_bind _ fun _ => ?_
  rcases t.operations with _ | ⟨op, _ | ⟨_, _⟩⟩
  case nil => trivial
  case cons.cons => trivial
  case cons.nil =>
    show Agree SameResult (executeOperationIn C order e.normalized t op)
      (executeOperation C e.normalized t op)
    exact executeOperationIn_agrees order

-- ==== batches

/-- One access against those of the batch so far. -/
def mergeEntry (entry : Σ _ : ObjectID, AccessMode)
    (prior : Option AccessMode) : Except Error (Option AccessMode) := do
  refuse (∃ mode ∈ prior, mode = .write ∨ entry.2 = .write) .batchConflict
  return some (prior.getD entry.2)

theorem ownKey_mergeAccess : OwnKey mergeAccess mergeEntry where
  ok := by
    intro all all' entry h
    unfold mergeAccess at h
    split at h
    case h_1 prior hprior =>
      simp only [ok_iff] at h
      obtain ⟨hread, rfl⟩ := h
      refine ⟨some prior, ?_, fun id => ?_⟩
      · rw [hprior, mergeEntry, refuse_of_not _ (by simpa using hread)]
        rfl
      · split
        case isTrue heq => rw [heq, hprior]
        case isFalse => rfl
    case h_2 hprior =>
      obtain rfl := Except.ok.inj h
      refine ⟨some entry.2, ?_, fun id => ?_⟩
      · rw [hprior, mergeEntry, refuse_of_not _ (by simp)]
        rfl
      · split
        case isTrue heq => rw [heq, AList.lookup_insert]
        case isFalse hne => rw [AList.lookup_insert_ne hne]
  total := by
    intro all entry b h
    unfold mergeAccess
    split
    case h_1 prior hprior =>
      rw [hprior] at h
      simp only [mergeEntry, ok_iff, Option.mem_some_iff,
        exists_eq_left'] at h
      rw [refuse_of_not _ h.1]
      exact ⟨_, rfl⟩
    case h_2 => exact ⟨_, rfl⟩

/-- A conflict is always reported as such. -/
theorem mergeAccess_error {entries : List (Σ _ : ObjectID, AccessMode)}
    {all : AccessModes} {err : Error}
    (h : entries.foldlM mergeAccess all = .error err) :
    err = .batchConflict := by
  induction entries generalizing all with
  | nil => cases h
  | cons entry entries ih =>
    rw [List.foldlM_cons] at h
    cases hstep : mergeAccess all entry with
    | ok all' =>
      rw [hstep] at h
      exact ih h
    | error err' =>
      rw [hstep] at h
      obtain rfl := Except.error.inj h
      unfold mergeAccess at hstep
      split at hstep
      case h_1 prior _ =>
        unfold refuse at hstep
        split at hstep
        case isTrue => exact (Except.error.inj hstep).symm
        case isFalse => cases hstep
      case h_2 => cases hstep

/-- What the batch check has seen, up to the order of the accesses. -/
structure SameSeen (s s' : BatchSeen) : Prop where
  transactions : s.transactions = s'.transactions
  accesses : SameMap s.accesses s'.accesses

theorem independentStepIn_cases (order : MapOrder) (root : Hash)
    {s s' : BatchSeen} (hs : SameSeen s s') (t : Transaction) :
    (∃ err, independentStepIn C order root s t = .error err ∧
      independentStep C root s' t = .error err) ∨
    ∃ next next', independentStepIn C order root s t = .ok next ∧
      independentStep C root s' t = .ok next' ∧ SameSeen next next' := by
  unfold independentStepIn independentStep
  rw [hs.transactions]
  by_cases hroot : t.stateRoot ≠ root
  · rw [refuse_of _ hroot]
    exact .inl ⟨_, rfl, rfl⟩
  by_cases hseen : t.id C ∈ s'.transactions
  · rw [refuse_of_not _ hroot, refuse_of _ hseen]
    exact .inl ⟨_, rfl, rfl⟩
  rw [refuse_of_not _ hroot, refuse_of_not _ hseen]
  cases transactionAccesses t with
  | error err => exact .inl ⟨err, rfl, rfl⟩
  | ok accesses =>
    simp only [ok_bind]
    have hagree := ownKey_mergeAccess.agree_reorder order
      s'.transactions.length accesses hs.accesses
    cases hin : ((order.reorder s'.transactions.length
        accesses).entries.foldlM mergeAccess s.accesses) with
    | error err =>
      cases hout : accesses.entries.foldlM mergeAccess s'.accesses with
      | error err' =>
        rw [mergeAccess_error hin, mergeAccess_error hout]
        exact .inl ⟨_, rfl, rfl⟩
      | ok all' =>
        rw [hin, hout] at hagree
        cases hagree
    | ok all =>
      cases hout : accesses.entries.foldlM mergeAccess s'.accesses with
      | error err' =>
        rw [hin, hout] at hagree
        cases hagree
      | ok all' =>
        rw [hin, hout] at hagree
        exact .inr ⟨_, _, rfl, rfl, rfl, hagree⟩

theorem independentLoop_eq (order : MapOrder) (root : Hash)
    (txs : List Transaction) {s s' : BatchSeen} (hs : SameSeen s s') :
    (txs.foldlM (independentStepIn C order root) s >>= fun _ => .ok ()) =
      txs.foldlM (independentStep C root) s' >>= fun _ => .ok () := by
  induction txs generalizing s s' with
  | nil => rfl
  | cons t txs ih =>
    rw [List.foldlM_cons, List.foldlM_cons]
    rcases independentStepIn_cases (C := C) order root hs t with
      ⟨err, hin, hout⟩ | ⟨next, next', hin, hout, hnext⟩
    · rw [hin, hout]
      rfl
    · rw [hin, hout]
      exact ih hnext

/-- The batch check accepts and refuses alike in every order, with the
same error. -/
theorem validateIndependentBatchIn_eq (C : Crypto) (order : MapOrder)
    (txs : List Transaction) :
    validateIndependentBatchIn C order txs =
      validateIndependentBatch C txs := by
  cases txs with
  | nil => rfl
  | cons first rest =>
    exact independentLoop_eq order first.stateRoot (first :: rest)
      ⟨rfl, fun _ => rfl⟩

end ZephyrChain.Execution
