/-
Parallel batches.

# One outcome for each choice of map orders

A call of `ExecuteBatch` returns, and what it returns depends neither on
the number of workers nor on how their steps interleave
(`batchReturns_iff`). With other orders of the map loops it accepts and
refuses the same batches, with the same results up to order
(`batchOutcome_agrees`).

# Commuting deltas

The results of an accepted batch are independent deltas: no transaction
consumes an input of another, and the objects they create have different
ids. So the store takes them together, or one by one in any order, and
ends in one state.
-/
import ZephyrChain.Execution.Parallel
import ZephyrChain.Execution.Proofs.Access
import ZephyrChain.Execution.Proofs.Storable
import ZephyrChain.WorldState.Proofs.Commute

namespace ZephyrChain.Execution

open Lib Lib.SparseMerkle
open State (smtHash)
open WorldState (Memory Mirrors ValidDelta Delta merged Independent
  applyInTurn Reachable newMemory)

variable {C : Crypto} {e : Engine} {txs : List Transaction}
  {results : List Result}

-- ==== outcomes

/-- What a batch returns for one choice of map orders. -/
def batchOutcome (C : Crypto) (e : Engine) (orders : BatchOrders)
    (txs : List Transaction) : Except Error (List Result) := do
  validateIndependentBatch C txs
  collect (batchCall C e orders txs) txs.length

theorem batchWorkers_pos (procs workers : Int) (n : Nat) :
    0 < batchWorkers procs workers n := by
  unfold batchWorkers
  simp only
  generalize (if (n : Int) < _ then (n : Int) else _) = capped
  split
  case isTrue => exact Nat.one_pos
  case isFalse => omega

theorem collect_congr {slot slot' : Nat → Except Error Result} {n : Nat}
    (h : ∀ i < n, slot i = slot' i) : collect slot n = collect slot' n :=
  mapM_congr fun i hi => h i (List.mem_range.1 hi)

/-- A pool that is done has the outcome of every call in its slot. -/
theorem collect_pool {orders : BatchOrders} {procs workers : Int}
    {s : Pool (Except Error Result)}
    (hsteps : Pool.Steps (batchPool C e orders procs workers txs)
      Pool.start s)
    (hfinal : Pool.Final (batchPool C e orders procs workers txs) s) :
    collect (fun i => (s.slots i).getD (.ok zeroResult)) txs.length =
      collect (batchCall C e orders txs) txs.length := by
  refine collect_congr fun i hi => ?_
  have hslot := Pool.slots_of_final hsteps hfinal hi
  rw [hslot]
  rfl

/-- For one choice of map orders a batch returns one outcome, whatever
the number of workers and the interleaving of their steps. -/
theorem batchReturns_iff (C : Crypto) (e : Engine) (orders : BatchOrders)
    (procs workers : Int) (txs : List Transaction)
    (out : Except Error (List Result)) :
    BatchReturns C e orders procs workers txs out ↔
      out = batchOutcome C e orders txs := by
  unfold batchOutcome
  constructor
  · intro h
    cases h with
    | empty hempty =>
      subst hempty
      rfl
    | refused _ hbatch =>
      rw [validateIndependentBatchIn_eq] at hbatch
      rw [hbatch]
      rfl
    | serial _ hbatch _ =>
      rw [validateIndependentBatchIn_eq] at hbatch
      rw [hbatch]
      rfl
    | pooled _ hbatch _ hsteps hfinal =>
      rw [validateIndependentBatchIn_eq] at hbatch
      rw [hbatch, collect_pool hsteps hfinal]
      rfl
  · rintro rfl
    by_cases hempty : txs = []
    · have hout : BatchReturns C e orders procs workers txs (.ok []) :=
        .empty hempty
      subst hempty
      exact hout
    cases hbatch : validateIndependentBatch C txs with
    | error err =>
      rw [← validateIndependentBatchIn_eq C orders.check] at hbatch
      exact .refused hempty hbatch
    | ok _ =>
      rw [← validateIndependentBatchIn_eq C orders.check] at hbatch
      by_cases hone : batchWorkers procs workers txs.length = 1
      · exact .serial hempty hbatch hone
      · have hpos := batchWorkers_pos procs workers txs.length
        have hinv : Pool.Inv (batchPool C e orders procs workers txs)
            Pool.start := Pool.inv_start
        obtain ⟨s, hsteps, hfinal⟩ := Pool.exists_final hpos hpos hinv
        have hout := BatchReturns.pooled hempty hbatch hone hsteps hfinal
        rwa [collect_pool hsteps hfinal] at hout

/-- The results of two runs of a batch, equal up to order. -/
abbrev SameResults : List Result → List Result → Prop :=
  List.Forall₂ SameResult

theorem SameResults.symm {rs rs' : List Result} (h : SameResults rs rs') :
    SameResults rs' rs := by
  induction h with
  | nil => exact .nil
  | cons hr _ ih => exact .cons hr.symm ih

theorem SameResults.trans {rs rs' rs'' : List Result}
    (h : SameResults rs rs') (h' : SameResults rs' rs'') :
    SameResults rs rs'' := by
  induction h generalizing rs'' with
  | nil => exact h'
  | cons hr _ ih =>
    cases h' with
    | cons hr' hrest => exact .cons (hr.trans hr') (ih hrest)

/-- A loop over the indices of a list agrees with a loop over the list. -/
theorem agree_mapM_range {f : Nat → Except Error Result}
    {g : Transaction → Except Error Result}
    (h : ∀ i t, txs[i]? = some t → Agree SameResult (f i) (g t)) :
    Agree SameResults ((List.range txs.length).mapM f)
      (txs.mapM g) := by
  induction txs generalizing f with
  | nil => exact .nil
  | cons t txs ih =>
    rw [List.length_cons, List.range_succ_eq_map, List.mapM_cons,
      List.mapM_cons, List.mapM_map]
    refine (h 0 t rfl).bind fun r r' hr => ?_
    refine (ih fun i t' ht' => h (i + 1) t' ht').bind fun rs rs' hrs => ?_
    exact .cons hr hrs

/-- In every order of the map loops a batch is accepted or refused alike,
with the same results up to order. -/
theorem batchOutcome_agrees (C : Crypto) (e : Engine) (orders : BatchOrders)
    (txs : List Transaction) :
    Agree SameResults (batchOutcome C e orders txs)
      (executeBatch C e txs) := by
  unfold batchOutcome executeBatch
  refine agree_bind _ fun _ => agree_mapM_range fun i t ht => ?_
  unfold batchCall
  rw [ht]
  exact executeIn_agrees C (orders.call i) e t

-- ==== independence

/-- No two ids derived from the transactions of a batch are the same, and
none is live in the state the transactions were signed for. -/
structure BatchIDs (C : Crypto) (m : Memory) (txs : List Transaction) :
    Prop where
  distinct : ∀ t ∈ txs, ∀ t' ∈ txs, ∀ i j,
    newID C t i = newID C t' j → t.id C = t'.id C ∧ i = j
  fresh : ∀ t ∈ txs, NewIn C m t

/-- A transaction executed against a state. -/
structure RanOn (C : Crypto) (e : Engine) (m : Memory) (t : Transaction)
    (r : Result) : Prop where
  executed : execute C e t = .ok r
  root : t.stateRoot = m.root C
  collisionFree : CollisionFree C m t
  fresh : NewIn C m t

section RanOn

variable {m : Memory} {t t' : Transaction} {r r' : Result}
variable {id : ObjectID}

/-- Its inputs are live. -/
theorem RanOn.live (hm : Mirrors C m) (h : RanOn C e m t r)
    (hid : id ∈ t.inputs.map InputRef.objectID) : id ∈ m.objects := by
  obtain ⟨hck, -⟩ := execute_leaves h.executed
  rw [hck.enveloped.ids] at hid
  obtain ⟨o, ho, rfl⟩ := List.mem_map.1 hid
  exact live_of_witness hm hck.enveloped h.root h.collisionFree ho

/-- What it consumes is among its inputs. -/
theorem RanOn.consumed_input (h : RanOn C e m t r) (hid : id ∈ r.consumed) :
    id ∈ t.inputs.map InputRef.objectID := by
  obtain ⟨hck, used, items, hfoot, -⟩ := execute_leaves h.executed
  rw [hfoot.consumed] at hid
  obtain ⟨o, ho, rfl⟩ := List.mem_map.1 hid
  rw [hck.enveloped.ids]
  exact List.mem_map_of_mem (hfoot.used_mem o ho)

/-- What it creates is new, or replaces what it consumes. -/
theorem RanOn.created_origin (h : RanOn C e m t r) {o : Object}
    (ho : o ∈ r.created) : (∃ i, o.id = newID C t i) ∨ o.id ∈ r.consumed := by
  obtain ⟨-, used, items, hfoot, -⟩ := execute_leaves h.executed
  rw [hfoot.created] at ho
  obtain ⟨item, hitem, rfl⟩ := List.mem_map.1 ho
  cases item with
  | fresh index spec => exact .inl ⟨index, rfl⟩
  | next w data =>
    right
    rw [hfoot.consumed]
    exact List.mem_map.2 ⟨w, hfoot.bases w (mem_bases hitem), rfl⟩

theorem RanOn.validDelta (hm : Mirrors C m) (h : RanOn C e m t r)
    (hdistinct : ∀ i j, newID C t i = newID C t j → i = j)
    (hvalid : ∀ o ∈ r.created, o.Valid) :
    ValidDelta m.objects r.consumed r.created := by
  obtain ⟨hck, used, items, hfoot, -⟩ := execute_leaves h.executed
  exact hfoot.validDelta hck hdistinct hvalid hm h.root h.collisionFree
    h.fresh

/-- Of two compatible transactions neither touches an input of the
other. -/
theorem RanOn.untouched (hm : Mirrors C m) (h : RanOn C e m t r)
    (h' : RanOn C e m t' r') (hcompatible : Compatible C t t')
    {a a' : AccessModes} (ha : transactionAccesses t = .ok a)
    (ha' : transactionAccesses t' = .ok a')
    (hid : id ∈ t.inputs.map InputRef.objectID) :
    id ∉ r'.consumed ∧ ∀ o ∈ r'.created, o.id ≠ id := by
  have hconsumed := hcompatible.disjoint h.executed h'.executed ha ha' hid
  refine ⟨hconsumed, fun o ho heq => ?_⟩
  rcases h'.created_origin ho with ⟨i, hnew⟩ | hrewritten
  · exact h'.fresh i (hnew ▸ heq ▸ h.live hm hid)
  · exact hconsumed (heq ▸ hrewritten)

/-- Two results that touch different objects. -/
structure Apart (r r' : Result) : Prop where
  consumed : List.Disjoint r.consumed r'.consumed
  created : List.Disjoint (r.created.map Object.id)
    (r'.created.map Object.id)

theorem RanOn.apart (hm : Mirrors C m) (h : RanOn C e m t r)
    (h' : RanOn C e m t' r') (hcompatible : Compatible C t t')
    (hdistinct : ∀ i j, newID C t i = newID C t' j → t.id C = t'.id C)
    {a a' : AccessModes} (ha : transactionAccesses t = .ok a)
    (ha' : transactionAccesses t' = .ok a') : Apart r r' := by
  have hleft := fun id (hid : id ∈ r.consumed) =>
    h.untouched hm h' hcompatible ha ha' (h.consumed_input hid)
  have hright := fun id (hid : id ∈ r'.consumed) =>
    h'.untouched hm h hcompatible.symm ha' ha (h'.consumed_input hid)
  refine ⟨fun id hid hid' => (hleft id hid).1 hid', fun id hid hid' => ?_⟩
  obtain ⟨o, ho, rfl⟩ := List.mem_map.1 hid
  obtain ⟨o', ho', heq⟩ := List.mem_map.1 hid'
  rcases h.created_origin ho with ⟨i, hnew⟩ | hrewritten
  · rcases h'.created_origin ho' with ⟨j, hnew'⟩ | hrewritten'
    · refine hcompatible.id (hdistinct i j ?_)
      rw [← hnew, ← hnew', heq]
    · exact (hright o'.id hrewritten').2 o ho heq.symm
  · exact (hleft o.id hrewritten).2 o' ho' heq

end RanOn

/-- What a result changes in the store. -/
def Result.delta (r : Result) : Delta := ⟨r.consumed, r.created⟩

theorem merged_deltas (results : List Result) :
    merged (results.map Result.delta) =
      ⟨results.flatMap Result.consumed, results.flatMap Result.created⟩ := by
  unfold merged
  rw [List.flatMap_map, List.flatMap_map]
  rfl

/-- A relation between the elements of one list carries over to the
elements of a list beside it. -/
theorem pairwise_beside {α β : Type} {R : α → β → Prop} {P : α → α → Prop}
    {Q : β → β → Prop} {xs : List α} {ys : List β}
    (h : List.Forall₂ R xs ys) (hp : xs.Pairwise P)
    (hq : ∀ x ∈ xs, ∀ x' ∈ xs, ∀ y y', P x x' → R x y → R x' y' → Q y y') :
    ys.Pairwise Q := by
  induction h with
  | nil => exact .nil
  | @cons x y xs ys hxy hrest ih =>
    obtain ⟨hhead, htail⟩ := List.pairwise_cons.1 hp
    refine List.pairwise_cons.2 ⟨fun y' hy' => ?_, ih htail ?_⟩
    · obtain ⟨x', hx', hR⟩ := exists_of_forall₂ hrest hy'
      exact hq x List.mem_cons_self x' (List.mem_cons_of_mem _ hx') y y'
        (hhead x' hx') hxy hR
    · intro z hz z' hz'
      exact hq z (List.mem_cons_of_mem _ hz) z' (List.mem_cons_of_mem _ hz')

/-- No transaction consumes, rewrites or replaces an input of another. -/
def Untouched (txs : List Transaction) (results : List Result) : Prop :=
  ∀ (i j : Nat) (t : Transaction) (r : Result), i ≠ j →
    txs[i]? = some t → results[j]? = some r → ∀ input ∈ t.inputs,
      input.objectID ∉ r.consumed ∧ ∀ o ∈ r.created, o.id ≠ input.objectID

section Batch

variable {m : Memory}

/-- The results of a batch that ran on a state are independent deltas. -/
theorem independent_of_batch (hm : Mirrors C m)
    (hbatch : validateIndependentBatch C txs = .ok ())
    (hran : List.Forall₂ (RanOn C e m) txs results)
    (hids : BatchIDs C m txs)
    (hvalid : ∀ r ∈ results, ∀ o ∈ r.created, o.Valid) :
    Independent m.objects (results.map Result.delta) := by
  obtain ⟨s, hseen⟩ := seen_of_batch hbatch
  have hapart : results.Pairwise Apart := by
    refine pairwise_beside hran hseen.pairwise ?_
    intro t ht t' ht' r r' hcompatible h h'
    obtain ⟨a, ha⟩ := hseen.declared t ht
    obtain ⟨a', ha'⟩ := hseen.declared t' ht'
    exact h.apart hm h' hcompatible
      (fun i j heq => (hids.distinct t ht t' ht' i j heq).1) ha ha'
  have hdelta : ∀ r ∈ results, ValidDelta m.objects r.consumed
      r.created := by
    intro r hr
    obtain ⟨t, ht, h⟩ := exists_of_forall₂ hran hr
    exact h.validDelta hm
      (fun i j heq => (hids.distinct t ht t ht i j heq).2) (hvalid r hr)
  refine ⟨?_, ?_⟩
  · rw [merged_deltas]
    refine ⟨?_, ?_, ?_, ?_, ?_⟩
    · refine List.nodup_flatMap.2 ⟨fun r hr => (hdelta r hr).nodup, ?_⟩
      exact hapart.imp fun h => h.consumed
    · intro id hid
      obtain ⟨r, hr, hid⟩ := List.mem_flatMap.1 hid
      exact (hdelta r hr).live id hid
    · intro o ho
      obtain ⟨r, hr, ho⟩ := List.mem_flatMap.1 ho
      exact hvalid r hr o ho
    · rw [List.map_flatMap]
      refine List.nodup_flatMap.2 ⟨fun r hr => (hdelta r hr).distinct, ?_⟩
      exact hapart.imp fun h => h.created
    · intro o ho hlive
      obtain ⟨r, hr, ho⟩ := List.mem_flatMap.1 ho
      exact List.mem_flatMap.2 ⟨r, hr, (hdelta r hr).fresh o ho hlive⟩
  · refine List.forall_mem_map.2 fun r hr => ?_
    exact (hdelta r hr).fresh

/-- What one transaction of a batch has as input no other one touches. -/
theorem untouched_of_batch (hm : Mirrors C m)
    (hbatch : validateIndependentBatch C txs = .ok ())
    (hran : List.Forall₂ (RanOn C e m) txs results) :
    Untouched txs results := by
  intro i j t r hij ht hr input hin
  obtain ⟨s, hseen⟩ := seen_of_batch hbatch
  obtain ⟨hi, rfl⟩ := List.getElem?_eq_some_iff.1 ht
  obtain ⟨hj, rfl⟩ := List.getElem?_eq_some_iff.1 hr
  have hlen := hran.length_eq
  have hj' : j < txs.length := by omega
  have hi' : i < results.length := by omega
  obtain ⟨a, ha⟩ := hseen.declared txs[i] (List.getElem_mem hi)
  obtain ⟨a', ha'⟩ := hseen.declared txs[j] (List.getElem_mem hj')
  have hcompatible : Compatible C txs[i] txs[j] := by
    have hpairs := List.pairwise_iff_getElem.1 hseen.pairwise
    rcases Nat.lt_or_gt_of_ne hij with hlt | hlt
    · exact hpairs i j hi hj' hlt
    · exact (hpairs j i hj' hi hlt).symm
  exact (hran.get hi hi').untouched hm (hran.get hj' hj) hcompatible ha ha'
    (List.mem_map_of_mem hin)

end Batch

-- ==== main results

/-- What the results of a batch do to the state they ran on: nothing is
consumed twice, no transaction touches an input of another, the store
takes all of them in one call, and one by one in every order, with the
same objects and the same root. -/
structure Commutes (C : Crypto) (m : Memory) (txs : List Transaction)
    (results : List Result) : Prop where
  consumed : (results.flatMap Result.consumed).Nodup
  untouched : Untouched txs results
  together : (m.apply C (results.flatMap Result.consumed)
    (results.flatMap Result.created)).2.2 = none
  inTurn : ∀ deltas, deltas.Perm (results.map Result.delta) →
    ∃ m', applyInTurn C m deltas = .ok m' ∧
      m'.objects = (m.apply C (results.flatMap Result.consumed)
        (results.flatMap Result.created)).1.objects ∧
      m'.root C = (m.apply C (results.flatMap Result.consumed)
        (results.flatMap Result.created)).2.1

theorem commutes_of_independent {m : Memory} (hm : Mirrors C m)
    (h : Independent m.objects (results.map Result.delta))
    (huntouched : Untouched txs results) :
    Commutes C m txs results := by
  have hmerged := merged_deltas results
  have hvalid := h.valid
  rw [hmerged] at hvalid
  obtain ⟨happly, -⟩ := hm.apply_valid hvalid
  refine ⟨hvalid.nodup, huntouched, ?_, fun deltas hp => ?_⟩
  · rw [happly]
  · have hturn := hm.applyInTurn_perm h hp.symm
    rw [hmerged] at hturn
    refine ⟨_, hturn, rfl, ?_⟩
    rw [happly]

variable {results' : List Result}

/-- The results of one run of a batch, seen through another. -/
theorem independent_congr {objects : WorldState.Objects}
    (hsame : SameResults results results')
    (h : Independent objects (results.map Result.delta)) :
    Independent objects (results'.map Result.delta) := by
  refine h.congr ?_
  rw [List.forall₂_map_left_iff, List.forall₂_map_right_iff]
  exact hsame.imp fun _ _ hr => ⟨hr.consumed, hr.created⟩

theorem untouched_congr (hsame : SameResults results results')
    (h : Untouched txs results) : Untouched txs results' := by
  intro i j t r' hij ht hr' input hin
  obtain ⟨hj', rfl⟩ := List.getElem?_eq_some_iff.1 hr'
  have hj : j < results.length := hsame.length_eq ▸ hj'
  have hr := hsame.get hj hj'
  obtain ⟨hconsumed, hcreated⟩ := h i j t results[j] hij ht
    (List.getElem?_eq_getElem hj) input hin
  refine ⟨fun hmem => hconsumed (hr.consumed.mem_iff.2 hmem), ?_⟩
  exact fun o ho => hcreated o (hr.created.mem_iff.2 ho)

/-- What a call of `ExecuteBatch` returns: always something, for one
choice of map orders one outcome whatever the workers do, and for every
choice the same decision and the same results up to order. -/
structure Deterministic (C : Crypto) (e : Engine) (txs : List Transaction) :
    Prop where
  returns : ∀ orders procs workers,
    ∃ out, BatchReturns C e orders procs workers txs out
  workers : ∀ orders procs procs' workers workers' out out',
    BatchReturns C e orders procs workers txs out →
    BatchReturns C e orders procs' workers' txs out' → out = out'
  orders : ∀ orders orders' procs procs' workers workers' out out',
    BatchReturns C e orders procs workers txs out →
    BatchReturns C e orders' procs' workers' txs out' →
    Agree SameResults out out'

theorem deterministic (C : Crypto) (e : Engine) (txs : List Transaction) :
    Deterministic C e txs where
  returns orders procs workers :=
    ⟨_, (batchReturns_iff C e orders procs workers txs _).2 rfl⟩
  workers := by
    intro orders procs procs' workers workers' out out' h h'
    rw [batchReturns_iff] at h h'
    rw [h, h']
  orders := by
    intro orders orders' procs procs' workers workers' out out' h h'
    rw [batchReturns_iff] at h h'
    rw [h, h']
    have hleft := batchOutcome_agrees C e orders txs
    have hright := batchOutcome_agrees C e orders' txs
    have hback : Agree SameResults (executeBatch C e txs)
        (batchOutcome C e orders' txs) :=
      hright.symm fun _ _ hrs => SameResults.symm hrs
    have htrans : ∀ rs rs' rs'', SameResults rs rs' →
        SameResults rs' rs'' → SameResults rs rs'' :=
      fun _ _ _ hrs hrs' => SameResults.trans hrs hrs'
    exact hleft.trans htrans hback

/-- Every run of a batch that executes in the stored order returns its
results. -/
theorem exists_batchReturns (orders : BatchOrders) (procs workers : Int)
    (h : executeBatch C e txs = .ok results') :
    ∃ results, BatchReturns C e orders procs workers txs (.ok results) ∧
      SameResults results' results := by
  have hagree := batchOutcome_agrees C e orders txs
  rw [h] at hagree
  obtain ⟨hok, hback⟩ := agree_iff.1 hagree
  obtain ⟨results, hout⟩ := hback results' rfl
  obtain ⟨_, heq, hsame⟩ := hok results hout
  obtain rfl := Except.ok.inj heq
  exact ⟨results, (batchReturns_iff _ _ _ _ _ _ _).2 hout.symm,
    SameResults.symm hsame⟩

theorem parallel_batches_commute (C : Crypto) (e : Engine) (m : Memory)
    (txs : List Transaction) (hm : Reachable C m)
    (hcf : ∀ t ∈ txs, CollisionFree C m t) (hids : BatchIDs C m txs) :
    Deterministic C e txs ∧
      ∀ orders procs workers results,
        BatchReturns C e orders procs workers txs (.ok results) →
        (∀ t ∈ txs, t.stateRoot = m.root C) →
        (∀ r ∈ results, ∀ o ∈ r.created, o.Valid) →
        Commutes C m txs results := by
  refine ⟨deterministic C e txs, ?_⟩
  intro orders procs workers results hrun hroot hvalid
  rw [batchReturns_iff] at hrun
  have hagree := batchOutcome_agrees C e orders txs
  rw [← hrun] at hagree
  obtain ⟨results', hbatch, hsame⟩ := (agree_iff.1 hagree).1 results rfl
  have hsame' : SameResults results' results := SameResults.symm hsame
  simp only [executeBatch, bind_eq_ok, exists_unit] at hbatch
  obtain ⟨hchecked, hexecuted⟩ := hbatch
  -- the stored order is one run of the batch; what holds of it carries
  -- over to the run at hand
  have hran : List.Forall₂ (RanOn C e m) txs results' := by
    have hstate : ∀ t ∈ txs, t.stateRoot = m.root C ∧
        CollisionFree C m t ∧ NewIn C m t :=
      fun t ht => ⟨hroot t ht, hcf t ht, hids.fresh t ht⟩
    refine ((List.forall₂_and_left _ _).2
      ⟨hstate, mapM_eq_ok hexecuted⟩).imp fun t r h => ?_
    exact ⟨h.2, h.1.1, h.1.2.1, h.1.2.2⟩
  have hvalid' : ∀ r ∈ results', ∀ o ∈ r.created, o.Valid := by
    intro r hr o ho
    obtain ⟨r', hr', hsame⟩ := exists_of_forall₂ hsame hr
    exact hvalid r' hr' o (hsame.created.mem_iff.2 ho)
  have hindependent :=
    independent_of_batch hm.mirrors hchecked hran hids hvalid'
  have huntouched := untouched_of_batch hm.mirrors hchecked hran
  exact commutes_of_independent hm.mirrors
    (independent_congr hsame' hindependent)
    (untouched_congr hsame' huntouched)

-- ==== sample

/-- Under `tailCrypto` every empty subtree has the digest of a leaf. -/
theorem defaultNode_tailCrypto (h : Nat) :
    defaultNode (smtHash tailCrypto) h = smtHash tailCrypto .empty := by
  induction h with
  | zero => rfl
  | succ h ih =>
    rw [defaultNode, ih]
    show tailCrypto.sha256 (domainFrame _ (_ ++ _)) = _
    rw [domainFrame, Writer.bytes, Writer.bytes, ← List.append_assoc,
      ← List.append_assoc]
    exact tailCrypto_append _ _

theorem root_newMemory_tailCrypto :
    newMemory.root tailCrypto = smtHash tailCrypto .empty :=
  defaultNode_tailCrypto _

/-- The creation of a token on the empty state. -/
def tailCreation : Transaction :=
  { sampleTransaction tailCrypto
      ⟨Op.createToken, (sampleCreate tailCrypto).encode⟩ with
    stateRoot := smtHash tailCrypto .empty }

def tailEngine : Engine := sampleEngine (Vector.replicate 32 7)

/-- The creation of a second token, with another salt. -/
def otherCreation : Transaction :=
  { tailCreation with salt := Vector.replicate 16 2 }

def twoCreations : List Transaction := [tailCreation, otherCreation]

/-- Both creations execute, and their combined delta is valid. -/
def twoDelta : Except Error Unit := do
  let results ← executeBatch tailCrypto tailEngine twoCreations
  WorldState.validateDelta WorldState.newMemory.objects
    (results.flatMap Result.consumed) (results.flatMap Result.created)

theorem twoDelta_ok : twoDelta = .ok () := by decide +kernel

theorem newID_inj_twoCreations : ∀ t ∈ twoCreations, ∀ t' ∈ twoCreations,
    ∀ i j, newID tailCrypto t i = newID tailCrypto t' j →
      t.id tailCrypto = t'.id tailCrypto ∧ i = j := by
  have hids : ∀ t ∈ twoCreations, ∀ t' ∈ twoCreations,
      (t.id tailCrypto).toList.drop 12 = (t'.id tailCrypto).toList.drop 12 →
        t.id tailCrypto = t'.id tailCrypto := by
    decide +kernel
  have hshard : ∀ t ∈ twoCreations, t.shardID = 0 := by decide
  intro t ht t' ht' i j h
  have hlist := congrArg Vector.toList h
  rw [toList_objectIDForShard, toList_objectIDForShard, hshard t ht,
    hshard t' ht'] at hlist
  have hrest := List.append_cancel_left hlist
  have hlen : ((t.id tailCrypto).toList.drop 12).length =
      ((t'.id tailCrypto).toList.drop 12).length := by
    simp
  obtain ⟨hid, hindex⟩ := List.append_inj hrest hlen
  exact ⟨hids t ht t' ht' hid,
    Writer.u32_inj (List.append_cancel_right hindex)⟩

theorem twoCreations_commute : ∃ results,
    BatchReturns tailCrypto tailEngine ⟨.stored, fun _ => .stored⟩ 4 2
      twoCreations (.ok results) ∧
    Commutes tailCrypto WorldState.newMemory twoCreations results := by
  have hdelta := twoDelta_ok
  simp only [twoDelta, bind_eq_ok] at hdelta
  obtain ⟨results', hexec, hvalid⟩ := hdelta
  obtain ⟨results, hrun, hsame⟩ :=
    exists_batchReturns ⟨.stored, fun _ => .stored⟩ 4 2 hexec
  have hwitnesses : ∀ t ∈ twoCreations, t.witnesses = [] := by
    decide
  have hroot : ∀ t ∈ twoCreations,
      t.stateRoot = WorldState.newMemory.root tailCrypto := by
    rw [root_newMemory_tailCrypto]
    decide +kernel
  refine ⟨results, hrun, (parallel_batches_commute tailCrypto tailEngine
    WorldState.newMemory twoCreations .new ?_ ?_).2 _ _ _ results hrun hroot
      ?_⟩
  · intro t ht
    refine ⟨?_, ?_⟩
    · rw [hwitnesses t ht]
      simp
    · rw [hwitnesses t ht]
      simp
  · exact ⟨newID_inj_twoCreations, fun _ _ _ => Finmap.notMem_empty⟩
  · intro r hr o ho
    obtain ⟨r', hr', hsame⟩ := exists_of_forall₂ hsame hr
    exact (WorldState.validateDelta_eq_ok.1 hvalid).valid o
      (List.mem_flatMap.2 ⟨r', hr', hsame.created.mem_iff.2 ho⟩)

end ZephyrChain.Execution
