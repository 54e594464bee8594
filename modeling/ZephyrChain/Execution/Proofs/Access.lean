/-
The declared accesses of a transaction and what it really consumes.

The batch check derives access modes from a transaction before it runs:
every input is written, except the token definitions of a transfer, the
contract of a call, and the objects a call declares as read. The executor
decides for itself what to consume. The two agree for every operation
(`consumed_written`): what a transaction consumes it has declared as
written. So of two transactions in an accepted batch neither consumes an
input of the other.
-/
import ZephyrChain.Execution.Proofs.MapOrder
import ZephyrChain.Execution.Proofs.Footprint.Execute

namespace ZephyrChain.Execution

open Lib

variable {C : Crypto} {e : Engine} {t : Transaction} {r : Result}

-- ==== marks

variable {id : ObjectID}

theorem mark_eq_ok {accesses accesses' : AccessModes} {mode : AccessMode}
    (h : accesses.mark id mode = .ok accesses') :
    id ∈ accesses ∧ accesses' = accesses.insert id mode := by
  simp only [AccessModes.mark, ok_iff, not_not] at h
  exact ⟨h.1, h.2.symm⟩

/-- A row of marks: it changes no entry besides those it marks, and where
the marked ids are different each ends with its mode. -/
structure Marked {α : Type} (id : α → ObjectID) (mode : α → AccessMode)
    (xs : List α) (accesses accesses' : AccessModes) : Prop where
  mem : ∀ k, k ∈ accesses' ↔ k ∈ accesses
  other : ∀ k, k ∉ xs.map id → accesses'.lookup k = accesses.lookup k
  marked : (xs.map id).Nodup → ∀ x ∈ xs, accesses'.lookup (id x) =
    some (mode x)

theorem marked_of_loop {α : Type} {id : α → ObjectID}
    {mode : α → AccessMode} {xs : List α} {accesses accesses' : AccessModes}
    (h : xs.foldlM (fun (m : AccessModes) x => m.mark (id x) (mode x))
      accesses = .ok accesses') : Marked id mode xs accesses accesses' := by
  induction xs generalizing accesses with
  | nil =>
    simp only [List.foldlM_nil, pure_eq_ok] at h
    subst h
    exact ⟨fun _ => Iff.rfl, fun _ _ => rfl, by simp⟩
  | cons x xs ih =>
    simp only [List.foldlM_cons, bind_eq_ok] at h
    obtain ⟨next, hmark, h⟩ := h
    obtain ⟨hmem, rfl⟩ := mark_eq_ok hmark
    have hrest := ih h
    refine ⟨fun k => ?_, fun k hk => ?_, fun hnodup => ?_⟩
    · rw [hrest.mem, AList.mem_insert]
      exact or_iff_right_of_imp fun heq => heq ▸ hmem
    · rw [List.map_cons, List.mem_cons, not_or] at hk
      rw [hrest.other k hk.2, AList.lookup_insert_ne hk.1]
    · obtain ⟨hnew, hnodup⟩ := List.nodup_cons.1 hnodup
      refine List.forall_mem_cons.2 ⟨?_, hrest.marked hnodup⟩
      rw [hrest.other (id x) hnew, AList.lookup_insert]

/-- Every input starts as written. -/
theorem lookup_inputs (inputs : List InputRef) (accesses : AccessModes)
    (id : ObjectID) :
    (inputs.foldl (fun (m : AccessModes) i => m.insert i.objectID .write)
      accesses).lookup id =
      if id ∈ inputs.map InputRef.objectID then some .write
      else accesses.lookup id := by
  induction inputs generalizing accesses with
  | nil => rfl
  | cons input inputs ih =>
    rw [List.foldl_cons, ih]
    by_cases hlater : id ∈ inputs.map InputRef.objectID
    · simp [hlater]
    · by_cases heq : id = input.objectID
      · subst heq
        simp [hlater]
      · simp [hlater, heq, AList.lookup_insert_ne heq]

/-- The inputs of a transaction, all written. -/
def inputModes (t : Transaction) : AccessModes :=
  t.inputs.foldl (fun m i => m.insert i.objectID .write) ∅

theorem lookup_inputModes (h : id ∈ t.inputs.map InputRef.objectID) :
    (inputModes t).lookup id = some .write := by
  rw [inputModes, lookup_inputs, if_pos h]

-- ==== operations

/-- A transaction that executes has one operation. -/
theorem execute_single (h : execute C e t = .ok r) :
    ∃ op, t.operations = [op] ∧
      executeOperation C e.normalized t op = .ok r := by
  simp only [execute, ok_iff] at h
  obtain ⟨-, h⟩ := h
  split at h
  case h_1 op hop => exact ⟨op, hop, h⟩
  case h_2 => cases h

variable {op : Operation}

/-- The operation of a call. -/
theorem executeOperation_call (hk : op.kind = Op.contractCall) :
    executeOperation C e t op = executeContractCall C e t op.payload := by
  unfold executeOperation executeExtended
  rw [hk]
  rfl

variable {a : AccessModes}

/-- What an operation that is no transfer and no call declares. -/
theorem transactionAccesses_other (hop : t.operations = [op])
    (htransfer : op.kind ≠ Op.transfer)
    (hcall : op.kind ≠ Op.contractCall)
    (h : transactionAccesses t = .ok a) : a = inputModes t := by
  unfold transactionAccesses at h
  rw [hop] at h
  simp only [if_neg htransfer, if_neg hcall, pure_eq_ok] at h
  exact h.symm

/-- The definitions of a transfer are read. -/
theorem transactionAccesses_transfer (hop : t.operations = [op])
    (hk : op.kind = Op.transfer) (h : transactionAccesses t = .ok a) :
    Marked Object.id (fun _ => .read)
      (t.objects.filter fun o => o.kind = .tokenDefinition)
      (inputModes t) a := by
  unfold transactionAccesses at h
  rw [hop] at h
  simp only [if_pos hk] at h
  exact marked_of_loop h

/-- The contract of a call is read, its declared objects as declared. -/
theorem transactionAccesses_call (hop : t.operations = [op])
    (hk : op.kind = Op.contractCall) (h : transactionAccesses t = .ok a) :
    ∃ call, parseCall op.payload = .ok call ∧
      call.contractObject ∈ inputModes t ∧
      Marked Access.objectID (fun a => if a.write then .write else .read)
        call.accesses ((inputModes t).insert call.contractObject .read)
        a := by
  have hne : op.kind ≠ Op.transfer := hk ▸ by decide
  unfold transactionAccesses at h
  rw [hop] at h
  simp only [if_neg hne, if_pos hk, bind_eq_ok] at h
  obtain ⟨call, hcall, marked, hmark, h⟩ := h
  obtain ⟨hmem, rfl⟩ := mark_eq_ok hmark
  exact ⟨call, hcall, hmem, marked_of_loop h⟩

theorem parseCall_nodup {data : Bytes} {call : Call}
    (h : parseCall data = .ok call) :
    (call.accesses.map Access.objectID).Nodup := by
  simp only [parseCall, Call.validate, ok_iff, not_not] at h
  obtain ⟨_, _, ⟨_, _, hnodup⟩, rfl⟩ := h
  exact hnodup

theorem mem_of_lookup {mode : AccessMode} (h : a.lookup id = some mode) :
    id ∈ a :=
  AList.lookup_isSome.1 (by rw [h]; rfl)

/-- Every input has a mode. -/
theorem mem_transactionAccesses (hop : t.operations = [op])
    (h : transactionAccesses t = .ok a)
    (hid : id ∈ t.inputs.map InputRef.objectID) : id ∈ a := by
  have hinput : id ∈ inputModes t := mem_of_lookup (lookup_inputModes hid)
  by_cases htransfer : op.kind = Op.transfer
  · exact ((transactionAccesses_transfer hop htransfer h).mem id).2 hinput
  by_cases hcall : op.kind = Op.contractCall
  · obtain ⟨call, -, -, hmarked⟩ := transactionAccesses_call hop hcall h
    exact (hmarked.mem id).2 ((AList.mem_insert _).2 (.inr hinput))
  · rw [transactionAccesses_other hop htransfer hcall h]
    exact hinput

/-- The coins a transfer consumes are no definitions. -/
theorem transfer_written (henv : Enveloped C t)
    (hop : t.operations = [op]) (hk : op.kind = Op.transfer)
    (h : transactionAccesses t = .ok a)
    (hr : executeTransfer C e t = .ok r) :
    ∀ id ∈ r.consumed, a.lookup id = some .write := by
  rw [(executeTransfer_eq_ok hr).consumed, List.forall_mem_map]
  intro o ho
  obtain ⟨hmem, hcoin⟩ := List.mem_filter.1 ho
  have hunmarked : o.id ∉ (t.objects.filter fun o =>
      o.kind = .tokenDefinition).map Object.id := by
    intro hid
    obtain ⟨o', ho', heq⟩ := List.mem_map.1 hid
    obtain ⟨hmem', hdefinition⟩ := List.mem_filter.1 ho'
    obtain rfl := List.inj_on_of_nodup_map henv.nodup hmem' hmem heq
    simp only [decide_eq_true_eq] at hcoin hdefinition
    rw [hcoin] at hdefinition
    cases hdefinition
  rw [(transactionAccesses_transfer hop hk h).other _ hunmarked]
  refine lookup_inputModes ?_
  rw [henv.ids]
  exact List.mem_map_of_mem hmem

/-- The coins a call consumes are not declared, and what it rewrites is
declared as written. -/
theorem call_written (hck : Checked C t) (hop : t.operations = [op])
    (hk : op.kind = Op.contractCall) (h : transactionAccesses t = .ok a)
    (hr : executeContractCall C e t op.payload = .ok r) :
    ∀ id ∈ r.consumed, a.lookup id = some .write := by
  obtain ⟨call, result, hcalls⟩ := executeContractCall_eq_ok hr
  obtain ⟨call', hcall', -, hmarked⟩ := transactionAccesses_call hop hk h
  obtain rfl := Except.ok.inj (hcalls.parsed.symm.trans hcall')
  obtain ⟨created, consumed, receipt, hfee, -, rfl⟩ := hcalls.shape
  have hcontract : ¬ IsZero32 call.contractObject := by
    obtain ⟨o, ho, -⟩ := hcalls.contract
    obtain ⟨hmem, hid⟩ := mem_of_witnessByID ho
    rw [← hid]
    exact (hck.witness o hmem).1
  refine List.forall_mem_append.2 ⟨?_, fun id hid => ?_⟩
  · have hmoves := moves_of_fee hck hfee
    rw [hmoves.consumed, List.forall_mem_map]
    intro o ho
    obtain ⟨hmem, hout⟩ := List.mem_filter.1 ho
    simp only [decide_eq_true_eq, nonCoin, if_neg hcontract,
      List.singleton_append, List.mem_cons, not_or] at hout
    rw [hmarked.other o.id hout.2, AList.lookup_insert_ne hout.1]
    refine lookup_inputModes ?_
    rw [hck.enveloped.ids]
    exact List.mem_map_of_mem hmem
  · exact hmarked.marked (parseCall_nodup hcall') _
      (hcalls.written id hid)

/-- What a transaction consumes it has declared as written. -/
theorem consumed_written (hr : execute C e t = .ok r)
    (h : transactionAccesses t = .ok a) :
    ∀ id ∈ r.consumed, a.lookup id = some .write := by
  obtain ⟨hck, used, items, hfoot, -⟩ := execute_leaves hr
  obtain ⟨op, hop, hexec⟩ := execute_single hr
  unfold executeOperation at hexec
  split at hexec
  case isTrue hk => exact transfer_written hck.enveloped hop hk h hexec
  case isFalse htransfer =>
    by_cases hk : op.kind = Op.contractCall
    · rw [executeExtended, hk] at hexec
      exact call_written hck hop hk h hexec
    · rw [transactionAccesses_other hop htransfer hk h, hfoot.consumed,
        List.forall_mem_map]
      intro o ho
      refine lookup_inputModes ?_
      rw [hck.enveloped.ids]
      exact List.mem_map_of_mem (hfoot.used_mem o ho)

-- ==== batches

/-- Two transactions that share only objects both of them read. -/
structure Compatible (C : Crypto) (t t' : Transaction) : Prop where
  id : t.id C ≠ t'.id C
  shared : ∀ a a' id mode mode', transactionAccesses t = .ok a →
    transactionAccesses t' = .ok a' → a.lookup id = some mode →
    a'.lookup id = some mode' → mode = .read ∧ mode' = .read

/-- What the batch check knows of the transactions it has seen. -/
structure Seen (C : Crypto) (pre : List Transaction) (s : BatchSeen) :
    Prop where
  ids : ∀ t ∈ pre, t.id C ∈ s.transactions
  declared : ∀ t ∈ pre, ∃ a, transactionAccesses t = .ok a
  recorded : ∀ t ∈ pre, ∀ a id mode, transactionAccesses t = .ok a →
    a.lookup id = some mode → ∃ mode', s.accesses.lookup id = some mode' ∧
      (mode' = .read → mode = .read)
  pairwise : pre.Pairwise (Compatible C)

theorem mergeEntry_eq_ok {entry : Σ _ : ObjectID, AccessMode}
    {prior next : Option AccessMode}
    (h : mergeEntry entry prior = .ok next) :
    next = some (prior.getD entry.2) ∧
      ∀ mode, prior = some mode → mode = .read ∧ entry.2 = .read := by
  simp only [mergeEntry, ok_iff] at h
  obtain ⟨hread, rfl⟩ := h
  refine ⟨rfl, fun mode hmode => ?_⟩
  have hnot : ¬ (mode = .write ∨ entry.2 = .write) := fun hw =>
    hread ⟨mode, hmode, hw⟩
  rw [not_or] at hnot
  constructor
  · cases mode with
    | read => rfl
    | write => exact absurd rfl hnot.1
  · cases hentry : entry.2 with
    | read => rfl
    | write => exact absurd hentry hnot.2

/-- One more transaction. -/
theorem Seen.step {root : Hash} {pre : List Transaction} {s s' : BatchSeen}
    (hs : Seen C pre s) (h : independentStep C root s t = .ok s') :
    Seen C (pre ++ [t]) s' := by
  simp only [independentStep, ok_iff] at h
  obtain ⟨-, hnew, a, ha, all, hmerge, rfl⟩ := h
  obtain ⟨hentries, hothers⟩ :=
    ownKey_mergeAccess.foldlM_ok a.nodupKeys hmerge
  -- an entry of the new transaction meets only reads
  have hentry : ∀ id mode, a.lookup id = some mode →
      all.lookup id = some ((s.accesses.lookup id).getD mode) ∧
        ∀ prior, s.accesses.lookup id = some prior →
          prior = .read ∧ mode = .read := by
    intro id mode hmode
    exact mergeEntry_eq_ok
      (hentries ⟨id, mode⟩ (AList.mem_lookup_iff.1 hmode))
  have hkept : ∀ id prior, s.accesses.lookup id = some prior →
      all.lookup id = some prior := by
    intro id prior hprior
    cases hmode : a.lookup id with
    | some mode => rw [(hentry id mode hmode).1, hprior, Option.getD_some]
    | none =>
      have hnot : id ∉ a.entries.map Sigma.fst :=
        AList.lookup_eq_none.1 hmode
      rw [hothers id hnot, hprior]
  refine ⟨?_, ?_, ?_, ?_⟩
  · refine List.forall_mem_append.2
      ⟨fun t' ht' => List.mem_cons_of_mem _ (hs.ids t' ht'), ?_⟩
    exact List.forall_mem_singleton.2 List.mem_cons_self
  · exact List.forall_mem_append.2
      ⟨hs.declared, List.forall_mem_singleton.2 ⟨a, ha⟩⟩
  · refine List.forall_mem_append.2 ⟨?_, List.forall_mem_singleton.2 ?_⟩
    · intro t' ht' a' id mode ha' hmode
      obtain ⟨mode', hlookup, hread⟩ := hs.recorded t' ht' a' id mode ha' hmode
      exact ⟨mode', hkept id mode' hlookup, hread⟩
    · intro a' id mode ha' hmode
      obtain rfl := Except.ok.inj (ha.symm.trans ha')
      obtain ⟨hlookup, hprior⟩ := hentry id mode hmode
      refine ⟨_, hlookup, fun hread => ?_⟩
      cases hp : s.accesses.lookup id with
      | some prior => exact (hprior prior hp).2
      | none => rwa [hp] at hread
  · refine List.pairwise_append.2
      ⟨hs.pairwise, List.pairwise_singleton _ _, fun t' ht' => ?_⟩
    refine List.forall_mem_singleton.2 ⟨?_, ?_⟩
    · exact fun heq => hnew (heq ▸ hs.ids t' ht')
    · intro a' a'' id mode mode' ha' ha'' hmode hmode'
      obtain rfl := Except.ok.inj (ha.symm.trans ha'')
      obtain ⟨prior, hprior, hread⟩ := hs.recorded t' ht' a' id mode ha' hmode
      obtain ⟨hpriorRead, hmodeRead⟩ :=
        (hentry id mode' hmode').2 prior hprior
      exact ⟨hread hpriorRead, hmodeRead⟩

/-- The transactions of an accepted batch. -/
theorem seen_of_batch {txs : List Transaction}
    (h : validateIndependentBatch C txs = .ok ()) : ∃ s, Seen C txs s := by
  have hempty : Seen C [] ⟨[], ∅⟩ := ⟨by simp, by simp, by simp, .nil⟩
  cases txs with
  | nil => exact ⟨_, hempty⟩
  | cons first rest =>
    simp only [validateIndependentBatch, bind_eq_ok, exists_and_right] at h
    obtain ⟨⟨s, hloop⟩, -⟩ := h
    exact ⟨s, foldlM_prefix (P := Seen C) hempty
      (fun pre t s s' _ hs hstep => hs.step hstep) hloop⟩

/-- Of two transactions in an accepted batch neither consumes an input of
the other. -/
theorem Compatible.disjoint {t' : Transaction} {r' : Result}
    (h : Compatible C t t') (hr : execute C e t = .ok r)
    (hr' : execute C e t' = .ok r') {a' : AccessModes}
    (ha : transactionAccesses t = .ok a)
    (ha' : transactionAccesses t' = .ok a')
    (hid : id ∈ t.inputs.map InputRef.objectID) : id ∉ r'.consumed := by
  intro hconsumed
  obtain ⟨op, hop, -⟩ := execute_single hr
  obtain ⟨mode, hmode⟩ := Option.isSome_iff_exists.1
    (AList.lookup_isSome.2 (mem_transactionAccesses hop ha hid))
  have hwrite := consumed_written hr' ha' id hconsumed
  have hread := (h.shared a a' id mode .write ha ha' hmode hwrite).2
  cases hread

theorem Compatible.symm {t' : Transaction} (h : Compatible C t t') :
    Compatible C t' t where
  id := h.id.symm
  shared a a' id mode mode' ha ha' hmode hmode' :=
    (h.shared a' a id mode' mode ha' ha hmode' hmode).symm

end ZephyrChain.Execution
