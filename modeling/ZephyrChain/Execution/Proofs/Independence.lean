/-
When a batch takes one more transaction.

The batch check walks over its transactions and keeps, for every object,
the strongest access met so far. `Traced` says that nothing else is kept:
every access and every id on record belongs to one of the transactions.
With `Seen`, which says that nothing is missing, the next step of the
walk is decided by the transactions alone
(`validateIndependentBatch_concat`).
-/
import ZephyrChain.Execution.Proofs.Access

namespace ZephyrChain.Execution

open Lib

variable {C : Crypto} {e : Engine} {t : Transaction} {r : Result}

-- ==== accesses

theorem mem_inputModes {id : ObjectID} :
    id ∈ inputModes t ↔ id ∈ t.inputs.map InputRef.objectID := by
  constructor
  · intro hmem
    by_contra hnot
    obtain ⟨mode, hmode⟩ :=
      Option.isSome_iff_exists.1 (AList.lookup_isSome.2 hmem)
    rw [inputModes, lookup_inputs, if_neg hnot] at hmode
    cases hmode
  · exact fun hid => mem_of_lookup (lookup_inputModes hid)

/-- A loop of marks goes through when everything it marks has a mode. -/
theorem marks_total {α : Type} {id : α → ObjectID} {mode : α → AccessMode}
    {xs : List α} {accesses : AccessModes}
    (h : ∀ x ∈ xs, id x ∈ accesses) :
    ∃ accesses', xs.foldlM (fun (m : AccessModes) x =>
      m.mark (id x) (mode x)) accesses = .ok accesses' := by
  induction xs generalizing accesses with
  | nil => exact ⟨accesses, rfl⟩
  | cons x xs ih =>
    obtain ⟨hx, hxs⟩ := List.forall_mem_cons.1 h
    have hmark : accesses.mark (id x) (mode x) =
        .ok (accesses.insert (id x) (mode x)) := by
      unfold AccessModes.mark
      rw [refuse_of_not _ (not_not.2 hx)]
      rfl
    simp only [List.foldlM_cons, hmark, ok_bind]
    exact ih fun y hy => (AList.mem_insert _).2 (.inr (hxs y hy))

variable {a : AccessModes}

/-- The accesses of a transaction are to its inputs. -/
theorem mem_transactionAccesses_iff {op : Operation}
    (hop : t.operations = [op]) (h : transactionAccesses t = .ok a)
    {id : ObjectID} : id ∈ a ↔ id ∈ t.inputs.map InputRef.objectID := by
  refine ⟨fun hid => ?_, mem_transactionAccesses hop h⟩
  rw [← mem_inputModes]
  by_cases htransfer : op.kind = Op.transfer
  · exact ((transactionAccesses_transfer hop htransfer h).mem id).1 hid
  by_cases hcall : op.kind = Op.contractCall
  · obtain ⟨call, _, hcontract, hmarked⟩ :=
      transactionAccesses_call hop hcall h
    rcases (AList.mem_insert _).1 ((hmarked.mem id).1 hid) with rfl | hin
    · exact hcontract
    · exact hin
  · rwa [transactionAccesses_other hop htransfer hcall h] at hid

/-- The accesses of a transaction that executes are well formed. -/
theorem transactionAccesses_total (h : execute C e t = .ok r) :
    ∃ a, transactionAccesses t = .ok a := by
  obtain ⟨hck, _⟩ := execute_leaves h
  have henv := hck.enveloped
  have hinput : ∀ o ∈ t.objects, o.id ∈ inputModes t := by
    intro o ho
    rw [mem_inputModes, henv.ids]
    exact List.mem_map_of_mem ho
  obtain ⟨op, hop, hexec⟩ := execute_single h
  unfold transactionAccesses
  rw [hop]
  by_cases htransfer : op.kind = Op.transfer
  · simp only [if_pos htransfer]
    exact marks_total fun o ho => hinput o (List.mem_of_mem_filter ho)
  by_cases hcall : op.kind = Op.contractCall
  · rw [executeOperation_call hcall] at hexec
    obtain ⟨call, result, hcalls⟩ := executeContractCall_eq_ok hexec
    obtain ⟨o, ho, _⟩ := hcalls.contract
    obtain ⟨homem, hoid⟩ := mem_of_witnessByID ho
    have hcontract : call.contractObject ∈ inputModes t :=
      hoid ▸ hinput o homem
    have hmark : (inputModes t).mark call.contractObject .read =
        .ok ((inputModes t).insert call.contractObject .read) := by
      unfold AccessModes.mark
      rw [refuse_of_not _ (not_not.2 hcontract)]
      rfl
    simp only [if_neg htransfer, if_pos hcall, hcalls.parsed, ok_bind]
    rw [show t.inputs.foldl (fun (m : AccessModes) i =>
      m.insert i.objectID .write) ∅ = inputModes t from rfl, hmark, ok_bind]
    refine marks_total fun a ha => (AList.mem_insert _).2 (.inr ?_)
    obtain ⟨w, hw, _⟩ := hcalls.declared a ha
    obtain ⟨hwmem, hwid⟩ := mem_of_witnessByID hw
    exact hwid ▸ hinput w hwmem
  · simp only [if_neg htransfer, if_neg hcall]
    exact ⟨_, rfl⟩

-- ==== the walk

/-- Everything the batch check keeps belongs to a transaction it has
seen. -/
structure Traced (C : Crypto) (pre : List Transaction) (s : BatchSeen) :
    Prop where
  ids : ∀ id ∈ s.transactions, ∃ t ∈ pre, t.id C = id
  accesses : ∀ id mode, s.accesses.lookup id = some mode →
    ∃ t ∈ pre, ∃ a, transactionAccesses t = .ok a ∧
      a.lookup id = some mode

theorem traced_nil : Traced C [] ⟨[], ∅⟩ := by
  refine ⟨fun id hid => ?_, fun id mode hmode => ?_⟩
  · cases hid
  · cases hmode

variable {root : Hash}

theorem Traced.step {pre : List Transaction} {s s' : BatchSeen}
    (hs : Traced C pre s) (h : independentStep C root s t = .ok s') :
    Traced C (pre ++ [t]) s' := by
  simp only [independentStep, ok_iff] at h
  obtain ⟨_, _, a, ha, all, hmerge, rfl⟩ := h
  obtain ⟨hentries, hothers⟩ :=
    ownKey_mergeAccess.foldlM_ok a.nodupKeys hmerge
  have hlast : t ∈ pre ++ [t] :=
    List.mem_append_right _ (List.mem_singleton_self t)
  refine ⟨fun id hid => ?_, fun id mode hmode => ?_⟩
  · rcases List.mem_cons.1 hid with rfl | hold
    · exact ⟨t, hlast, rfl⟩
    · obtain ⟨u, hu, huid⟩ := hs.ids id hold
      exact ⟨u, List.mem_append_left _ hu, huid⟩
  · have hold : s.accesses.lookup id = some mode → ∃ u ∈ pre ++ [t], ∃ a,
        transactionAccesses u = .ok a ∧ a.lookup id = some mode := by
      intro hprior
      obtain ⟨u, hu, au, hau, humode⟩ := hs.accesses id mode hprior
      exact ⟨u, List.mem_append_left _ hu, au, hau, humode⟩
    cases hmine : a.lookup id with
    | none =>
      have hnot : id ∉ a.entries.map Sigma.fst :=
        AList.lookup_eq_none.1 hmine
      rw [hothers id hnot] at hmode
      exact hold hmode
    | some own =>
      have hentry := (mergeEntry_eq_ok
        (hentries ⟨id, own⟩ (AList.mem_lookup_iff.1 hmine))).1
      have hkept : all.lookup id =
          some ((s.accesses.lookup id).getD own) := hentry
      rw [hkept] at hmode
      cases hprior : s.accesses.lookup id with
      | some prior =>
        rw [hprior] at hmode
        exact hold (hprior.trans hmode)
      | none =>
        rw [hprior] at hmode
        exact ⟨t, hlast, a, ha, hmine.trans hmode⟩

variable {txs : List Transaction}

/-- The batch check of transactions on one root is the walk. -/
theorem validateIndependentBatch_eq
    (hroot : ∀ p ∈ txs, p.stateRoot = root) :
    validateIndependentBatch C txs = (do
      let _ ← txs.foldlM (independentStep C root) ⟨[], ∅⟩
      return ()) := by
  cases txs with
  | nil => rfl
  | cons first rest =>
    rw [← hroot first List.mem_cons_self]
    rfl

/-- What the walk over an accepted batch has kept. -/
theorem walk_of_batch (hroot : ∀ p ∈ txs, p.stateRoot = root)
    (h : validateIndependentBatch C txs = .ok ()) :
    ∃ s, txs.foldlM (independentStep C root) ⟨[], ∅⟩ = .ok s ∧
      Seen C txs s ∧ Traced C txs s := by
  have hempty : Seen C [] ⟨[], ∅⟩ := ⟨by simp, by simp, by simp, .nil⟩
  rw [validateIndependentBatch_eq hroot, bind_eq_ok] at h
  obtain ⟨s, hloop, _⟩ := h
  have hkept : Seen C txs s ∧ Traced C txs s :=
    foldlM_prefix (P := fun pre s => Seen C pre s ∧ Traced C pre s)
      ⟨hempty, traced_nil⟩
      (fun pre t s s' _ hs hstep => ⟨hs.1.step hstep, hs.2.step hstep⟩) hloop
  exact ⟨s, hloop, hkept⟩

/-- The walk takes one more transaction when all its accesses merge. -/
theorem independentStep_of_compatible {s : BatchSeen}
    (hseen : Seen C txs s) (htraced : Traced C txs s)
    (hnew : t.id C ∉ txs.map (Transaction.id C))
    (ha : transactionAccesses t = .ok a) :
    ((∀ p ∈ txs, Compatible C p t) →
      ∃ s', independentStep C t.stateRoot s t = .ok s') ∧
    ((∃ p ∈ txs, ¬ Compatible C p t) →
      independentStep C t.stateRoot s t = .error .batchConflict) := by
  have hid : t.id C ∉ s.transactions := by
    intro hmem
    obtain ⟨p, hp, hpid⟩ := htraced.ids _ hmem
    exact hnew (hpid ▸ List.mem_map_of_mem hp)
  have hstep : independentStep C t.stateRoot s t = (do
      let all ← a.entries.foldlM mergeAccess s.accesses
      return ⟨t.id C :: s.transactions, all⟩) := by
    unfold independentStep
    rw [refuse_of_not _ (not_not.2 rfl), refuse_of_not _ hid, ha]
    rfl
  rw [hstep]
  constructor
  · intro hcompatible
    have hmerge : ∀ entry ∈ a.entries, ∃ b,
        mergeEntry entry (s.accesses.lookup entry.1) = .ok b := by
      rintro ⟨id, mode⟩ hentry
      have hreads : ¬ ∃ prior ∈ s.accesses.lookup id,
          prior = .write ∨ mode = .write := by
        rintro ⟨prior, hprior, hwrite⟩
        obtain ⟨p, hp, ap, hap, hmode⟩ := htraced.accesses id prior hprior
        obtain ⟨hread, hread'⟩ := (hcompatible p hp).shared ap a id prior
          mode hap ha hmode (AList.mem_lookup_iff.2 hentry)
        rcases hwrite with hw | hw
        · exact absurd (hread.symm.trans hw) (by decide)
        · exact absurd (hread'.symm.trans hw) (by decide)
      unfold mergeEntry
      rw [refuse_of_not _ hreads]
      exact ⟨_, rfl⟩
    obtain ⟨all, hall⟩ :=
      ownKey_mergeAccess.foldlM_total a.nodupKeys hmerge
    rw [hall]
    exact ⟨_, rfl⟩
  · rintro ⟨p, hp, hnot⟩
    cases hmerge : a.entries.foldlM mergeAccess s.accesses with
    | error err =>
      rw [mergeAccess_error hmerge]
      rfl
    | ok all =>
      refine absurd ⟨fun heq => hnew (heq ▸ List.mem_map_of_mem hp), ?_⟩
        hnot
      intro ap a' id mode mode' hap ha' hmode hmode'
      obtain rfl := Except.ok.inj (ha.symm.trans ha')
      obtain ⟨prior, hprior, hread⟩ :=
        hseen.recorded p hp ap id mode hap hmode
      obtain ⟨hentries, _⟩ :=
        ownKey_mergeAccess.foldlM_ok a.nodupKeys hmerge
      obtain ⟨hpriorRead, hmodeRead⟩ := (mergeEntry_eq_ok
        (hentries ⟨id, mode'⟩ (AList.mem_lookup_iff.1 hmode'))).2 prior
          hprior
      exact ⟨hread hpriorRead, hmodeRead⟩

/-- One more transaction joins the batch when it is compatible with every
transaction in it, and is a conflict otherwise. -/
theorem validateIndependentBatch_concat
    (h : validateIndependentBatch C txs = .ok ())
    (hroot : ∀ p ∈ txs, p.stateRoot = t.stateRoot)
    (hnew : t.id C ∉ txs.map (Transaction.id C))
    (ha : transactionAccesses t = .ok a) :
    ((∀ p ∈ txs, Compatible C p t) →
      validateIndependentBatch C (txs ++ [t]) = .ok ()) ∧
    ((∃ p ∈ txs, ¬ Compatible C p t) →
      validateIndependentBatch C (txs ++ [t]) = .error .batchConflict) := by
  obtain ⟨s, hloop, hseen, htraced⟩ := walk_of_batch hroot h
  have hroots : ∀ p ∈ txs ++ [t], p.stateRoot = t.stateRoot :=
    List.forall_mem_append.2 ⟨hroot, List.forall_mem_singleton.2 rfl⟩
  rw [validateIndependentBatch_eq hroots, List.foldlM_append, hloop, ok_bind,
    List.foldlM_cons]
  obtain ⟨hjoins, hconflict⟩ :=
    independentStep_of_compatible hseen htraced hnew ha
  constructor
  · intro hcompatible
    obtain ⟨s', hs'⟩ := hjoins hcompatible
    rw [hs']
    rfl
  · intro hnot
    rw [hconflict hnot]
    rfl

/-- A transaction on another root than the batch. -/
theorem validateIndependentBatch_stale
    (h : validateIndependentBatch C txs = .ok ()) (hsome : txs ≠ [])
    (hroot : ∀ p ∈ txs, p.stateRoot = root) (hstale : t.stateRoot ≠ root) :
    validateIndependentBatch C (txs ++ [t]) = .error .batchStateRoot := by
  obtain ⟨s, hloop, _⟩ := walk_of_batch hroot h
  cases txs with
  | nil => exact absurd rfl hsome
  | cons first rest =>
    have hfirst := hroot first List.mem_cons_self
    show (do
      let _ ← ((first :: rest) ++ [t]).foldlM
        (independentStep C first.stateRoot) ⟨[], ∅⟩
      return ()) = _
    rw [hfirst, List.foldlM_append, hloop, ok_bind, List.foldlM_cons]
    simp only [independentStep, refuse_of _ hstale]
    rfl

end ZephyrChain.Execution
