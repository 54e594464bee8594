/-
The in-memory world state is one map in two forms. After any calls of
`Apply`, failed ones included, the tree's values are exactly the hashes
of the live objects, every live object is valid and stored under its own
id, and `Simulate` predicts what `Apply` does.

# One reading of the checks

`validateDelta` is the only place where a call can fail.
`validateDelta_eq_ok` reads its two loops as the five facts of
`ValidDelta`; no later proof looks at the loops again.

# One reading of the delta

`lookup_applyObjects` and `lookup_deltaUpdates` say what a valid delta
does to one id, in the same three cases: created, only consumed,
untouched. An id that is consumed and created in one call falls under
the first case on both sides, which is why the two structures agree.
-/
import ZephyrChain.WorldState.Memory
import ZephyrChain.State.Proofs.Tree

namespace ZephyrChain.WorldState

open Lib
open State (smtHash Coherent override)

-- ==== the checks

/-- What the checks of `Apply`, `Simulate` and `prevalidate` establish. -/
structure ValidDelta (objects : Objects) (consumed : List ObjectID)
    (created : List Object) : Prop where
  nodup : consumed.Nodup
  live : ∀ id ∈ consumed, id ∈ objects
  valid : ∀ o ∈ created, o.Valid
  distinct : (created.map Object.id).Nodup
  fresh : ∀ o ∈ created, o.id ∈ objects → o.id ∈ consumed

variable {objects : Objects} {consumed : List ObjectID}

/-- The loop over the consumed ids, from any set of ids already seen. -/
theorem foldlM_checkConsumed {seen s : Finset ObjectID} :
    consumed.foldlM (fun seenConsumed id => do
        refuse (id ∈ seenConsumed) Error.objectNotFound
        refuse (id ∉ objects) Error.objectNotFound
        return insert id seenConsumed) seen = .ok s ↔
      consumed.Nodup ∧ (∀ id ∈ consumed, id ∉ seen ∧ id ∈ objects) ∧
        s = seen ∪ consumed.toFinset := by
  induction consumed generalizing seen with
  | nil =>
    simp only [List.foldlM_nil, pure_eq_ok]
    simp [eq_comm]
  | cons id consumed ih =>
    simp only [List.foldlM_cons, ok_iff, not_not]
    constructor
    · rintro ⟨_, ⟨hnew, hlive, rfl⟩, h⟩
      obtain ⟨hnodup, hall, rfl⟩ := ih.1 h
      have hid : id ∉ consumed := by
        intro hmem
        exact (hall id hmem).1 (Finset.mem_insert_self id seen)
      refine ⟨List.nodup_cons.2 ⟨hid, hnodup⟩, ?_, ?_⟩
      · intro x hx
        rcases List.mem_cons.1 hx with rfl | hx
        · exact ⟨hnew, hlive⟩
        · have := hall x hx
          exact ⟨fun hs => this.1 (Finset.mem_insert_of_mem hs), this.2⟩
      · ext x
        simp
    · rintro ⟨hnodup, hall, rfl⟩
      obtain ⟨hid, hnodup⟩ := List.nodup_cons.1 hnodup
      have hhead := hall id List.mem_cons_self
      refine ⟨_, ⟨hhead.1, hhead.2, rfl⟩, ih.2 ⟨hnodup, ?_, ?_⟩⟩
      · intro x hx
        have hxs := hall x (List.mem_cons_of_mem id hx)
        refine ⟨fun hs => ?_, hxs.2⟩
        rcases Finset.mem_insert.1 hs with rfl | hs
        · exact hid hx
        · exact hxs.1 hs
      · ext x
        simp

variable {created : List Object}

/-- The loop over the created objects, from any set of ids already
seen. -/
theorem foldlM_checkCreated {seenConsumed : Finset ObjectID}
    {seen s : Finset ObjectID} :
    created.foldlM (fun seenCreated o => do
        o.validate
        refuse (o.id ∈ seenCreated) Error.objectExists
        refuse (o.id ∈ objects ∧ o.id ∉ seenConsumed) Error.objectExists
        return insert o.id seenCreated) seen = .ok s ↔
      (created.map Object.id).Nodup ∧
        (∀ o ∈ created, o.Valid ∧ o.id ∉ seen ∧
          (o.id ∈ objects → o.id ∈ seenConsumed)) ∧
        s = seen ∪ (created.map Object.id).toFinset := by
  induction created generalizing seen with
  | nil =>
    simp only [List.foldlM_nil, pure_eq_ok]
    simp [eq_comm]
  | cons o created ih =>
    simp only [List.foldlM_cons, ok_iff, not_and, not_not]
    constructor
    · rintro ⟨_, ⟨hvalid, hnew, hfresh, rfl⟩, h⟩
      obtain ⟨hnodup, hall, rfl⟩ := ih.1 h
      have hid : o.id ∉ created.map Object.id := by
        intro hmem
        obtain ⟨x, hx, hxid⟩ := List.mem_map.1 hmem
        exact (hall x hx).2.1 (hxid ▸ Finset.mem_insert_self _ seen)
      refine ⟨List.nodup_cons.2 ⟨hid, hnodup⟩, ?_, ?_⟩
      · intro x hx
        rcases List.mem_cons.1 hx with rfl | hx
        · exact ⟨hvalid, hnew, hfresh⟩
        · obtain ⟨hv, hn, hf⟩ := hall x hx
          exact ⟨hv, fun hs => hn (Finset.mem_insert_of_mem hs), hf⟩
      · ext x
        simp
    · rintro ⟨hnodup, hall, rfl⟩
      obtain ⟨hid, hnodup⟩ := List.nodup_cons.1 hnodup
      obtain ⟨hv, hn, hf⟩ := hall o List.mem_cons_self
      refine ⟨_, ⟨hv, hn, hf, rfl⟩, ih.2 ⟨hnodup, ?_, ?_⟩⟩
      · intro x hx
        obtain ⟨hvx, hnx, hfx⟩ := hall x (List.mem_cons_of_mem o hx)
        refine ⟨hvx, fun hs => ?_, hfx⟩
        rcases Finset.mem_insert.1 hs with heq | hs
        · exact hid (List.mem_map.2 ⟨x, hx, heq⟩)
        · exact hnx hs
      · ext x
        simp

theorem validateDelta_eq_ok :
    validateDelta objects consumed created = .ok () ↔
      ValidDelta objects consumed created := by
  unfold validateDelta checkConsumed checkCreated
  simp only [bind_eq_ok, foldlM_checkConsumed, foldlM_checkCreated,
    Finset.notMem_empty, not_false_eq_true, true_and, Finset.empty_union]
  constructor
  · rintro ⟨s, ⟨hnodup, hlive, rfl⟩, _, ⟨hdistinct, hall, rfl⟩, -⟩
    exact ⟨hnodup, hlive, fun o ho => (hall o ho).1, hdistinct,
      fun o ho hin => List.mem_toFinset.1 ((hall o ho).2 hin)⟩
  · intro h
    exact ⟨_, ⟨h.nodup, h.live, rfl⟩, _,
      ⟨h.distinct, fun o ho => ⟨h.valid o ho,
        fun hin => List.mem_toFinset.2 (h.fresh o ho hin)⟩, rfl⟩, rfl⟩

theorem validateDelta_cases (objects : Objects) (consumed : List ObjectID)
    (created : List Object) :
    (validateDelta objects consumed created = .ok () ∧
      ValidDelta objects consumed created) ∨
    ∃ e, validateDelta objects consumed created = .error e := by
  cases h : validateDelta objects consumed created with
  | ok u => exact Or.inl ⟨rfl, validateDelta_eq_ok.1 h⟩
  | error e => exact Or.inr ⟨e, rfl⟩

-- ==== the delta

theorem lookup_eraseAll (objects : Objects) (consumed : List ObjectID)
    (id : ObjectID) :
    (consumed.foldl (fun objects id => objects.erase id) objects).lookup id =
      if id ∈ consumed then none else objects.lookup id := by
  induction consumed generalizing objects with
  | nil => simp
  | cons x consumed ih =>
    rw [List.foldl_cons, ih]
    by_cases hid : id ∈ consumed
    · simp [hid]
    · by_cases hx : id = x
      · subst hx
        simp [hid]
      · simp [hid, hx, Finmap.lookup_erase_ne hx]

variable {id : ObjectID}

theorem lookup_insertAll_of_notMem (hid : id ∉ created.map Object.id)
    (objects : Objects) :
    (created.foldl (fun objects o => objects.insert o.id o) objects).lookup
      id = objects.lookup id := by
  induction created generalizing objects with
  | nil => rfl
  | cons o created ih =>
    rw [List.map_cons, List.mem_cons, not_or] at hid
    rw [List.foldl_cons, ih hid.2, Finmap.lookup_insert_of_ne _ hid.1]

variable {o : Object}

theorem lookup_insertAll_of_mem (ho : o ∈ created)
    (hnodup : (created.map Object.id).Nodup) (objects : Objects) :
    (created.foldl (fun objects o => objects.insert o.id o) objects).lookup
      o.id = some o := by
  induction created generalizing objects with
  | nil => cases ho
  | cons x created ih =>
    obtain ⟨hx, hnodup⟩ := List.nodup_cons.1 hnodup
    rw [List.foldl_cons]
    rcases List.mem_cons.1 ho with rfl | ho
    · rw [lookup_insertAll_of_notMem hx, Finmap.lookup_insert]
    · exact ih ho hnodup _

/-- A created object is stored. -/
theorem lookup_applyObjects_created
    (hnodup : (created.map Object.id).Nodup) (ho : o ∈ created) :
    (applyObjects objects consumed created).lookup o.id = some o :=
  lookup_insertAll_of_mem ho hnodup _

/-- Every other id is deleted when consumed and untouched otherwise. -/
theorem lookup_applyObjects_other (hid : id ∉ created.map Object.id) :
    (applyObjects objects consumed created).lookup id =
      if id ∈ consumed then none else objects.lookup id := by
  rw [applyObjects, lookup_insertAll_of_notMem hid, lookup_eraseAll]

theorem lookup_consumedUpdates (updates : State.Tree.Updates)
    (consumed : List ObjectID) (id : ObjectID) :
    (consumed.foldl (fun updates id => updates.insert id none)
      updates).lookup id =
      if id ∈ consumed then some none else updates.lookup id := by
  induction consumed generalizing updates with
  | nil => simp
  | cons x consumed ih =>
    rw [List.foldl_cons, ih]
    by_cases hid : id ∈ consumed
    · simp [hid]
    · by_cases hx : id = x
      · subst hx
        simp [hid]
      · simp [hid, hx, AList.lookup_insert_ne hx]

variable (C : Crypto)

theorem lookup_createdUpdates_of_notMem (hid : id ∉ created.map Object.id)
    (updates : State.Tree.Updates) :
    (created.foldl (fun updates o =>
      updates.insert o.id (some (o.hash C).toList)) updates).lookup id =
      updates.lookup id := by
  induction created generalizing updates with
  | nil => rfl
  | cons o created ih =>
    rw [List.map_cons, List.mem_cons, not_or] at hid
    rw [List.foldl_cons, ih hid.2, AList.lookup_insert_ne hid.1]

theorem lookup_deltaUpdates_created
    (hnodup : (created.map Object.id).Nodup) (ho : o ∈ created) :
    (deltaUpdates C consumed created).lookup o.id =
      some (some (o.hash C).toList) := by
  unfold deltaUpdates
  generalize consumed.foldl _ _ = updates
  induction created generalizing updates with
  | nil => cases ho
  | cons x created ih =>
    obtain ⟨hx, hnodup⟩ := List.nodup_cons.1 hnodup
    rw [List.foldl_cons]
    rcases List.mem_cons.1 ho with rfl | ho
    · rw [lookup_createdUpdates_of_notMem C hx, AList.lookup_insert]
    · exact ih hnodup ho _

theorem lookup_deltaUpdates_other (hid : id ∉ created.map Object.id) :
    (deltaUpdates C consumed created).lookup id =
      if id ∈ consumed then some none else none := by
  rw [deltaUpdates, lookup_createdUpdates_of_notMem C hid,
    lookup_consumedUpdates, AList.lookup_empty]

-- ==== the invariant

/-- The leaf value of a stored object. -/
def objectLeaf (o : Object) : Bytes := (o.hash C).toList

/-- The map the tree must hold for a set of live objects. -/
def leavesOf (objects : Objects) : Hash → Option Bytes :=
  fun id => (objects.lookup id).map (objectLeaf C)

/-- Tree and object map are the same map, and what they hold is valid. -/
structure Mirrors (m : Memory) : Prop where
  coherent : Coherent (smtHash C) m.tree
  values : m.tree.values = leavesOf C m.objects
  stored : ∀ id o, m.objects.lookup id = some o → o.id = id ∧ o.Valid

variable {C}

/-- A valid delta changes the leaves as it changes the objects. -/
theorem override_leavesOf (hd : ValidDelta objects consumed created) :
    override (leavesOf C objects) (deltaUpdates C consumed created) =
      leavesOf C (applyObjects objects consumed created) := by
  funext id
  by_cases hid : id ∈ created.map Object.id
  · obtain ⟨o, ho, rfl⟩ := List.mem_map.1 hid
    rw [override, lookup_deltaUpdates_created C hd.distinct ho, leavesOf,
      leavesOf, lookup_applyObjects_created hd.distinct ho]
    rfl
  · rw [override, lookup_deltaUpdates_other C hid, leavesOf, leavesOf,
      lookup_applyObjects_other hid]
    by_cases hc : id ∈ consumed
    · simp [hc]
    · simp [hc]

variable {m : Memory}

/-- What a call of `Apply` does: it fails and changes nothing, or the
delta was valid and both structures take it. -/
theorem Mirrors.apply_cases (hm : Mirrors C m) (consumed : List ObjectID)
    (created : List Object) :
    (∃ e, m.apply C consumed created = (m, m.root C, some e)) ∨
    (ValidDelta m.objects consumed created ∧
      Mirrors C (m.apply C consumed created).1 ∧
      (m.apply C consumed created).1.objects =
        applyObjects m.objects consumed created ∧
      (m.apply C consumed created).2 =
        ((m.apply C consumed created).1.root C, none)) := by
  rcases validateDelta_cases m.objects consumed created with
    ⟨hok, hd⟩ | ⟨e, he⟩
  · right
    have hobjects : (m.apply C consumed created).1.objects =
        applyObjects m.objects consumed created := by
      simp [Memory.apply, hok]
    have htree : (m.apply C consumed created).1.tree =
        (m.tree.apply (smtHash C) (deltaUpdates C consumed created)).1 := by
      simp [Memory.apply, hok]
    refine ⟨hd, ⟨?_, ?_, ?_⟩, hobjects, ?_⟩
    · rw [htree]
      exact hm.coherent.apply _
    · rw [htree, hm.coherent.apply_values, hm.values, override_leavesOf hd,
        hobjects]
    · rw [hobjects]
      intro id o ho
      by_cases hid : id ∈ created.map Object.id
      · obtain ⟨x, hx, rfl⟩ := List.mem_map.1 hid
        rw [lookup_applyObjects_created hd.distinct hx] at ho
        obtain rfl := Option.some.inj ho
        exact ⟨rfl, hd.valid _ hx⟩
      · rw [lookup_applyObjects_other hid] at ho
        split at ho
        case isTrue => cases ho
        case isFalse => exact hm.stored id o ho
    · rw [Memory.root, htree]
      simp [Memory.apply, hok, State.Tree.apply]
  · left
    exact ⟨e, by simp [Memory.apply, he]⟩

/-- The objects of a mirrored store determine it. -/
theorem Mirrors.ext {m' : Memory} (hm : Mirrors C m) (hm' : Mirrors C m')
    (h : m.objects = m'.objects) : m = m' := by
  have htree : m.tree = m'.tree := by
    refine hm.coherent.ext hm'.coherent ?_
    rw [hm.values, hm'.values, h]
  cases m
  cases m'
  simp only at h htree
  rw [h, htree]

/-- Applying a valid delta to a mirrored store succeeds. -/
theorem Mirrors.apply_valid (hm : Mirrors C m)
    (hd : ValidDelta m.objects consumed created) :
    m.apply C consumed created =
      ((m.apply C consumed created).1,
        (m.apply C consumed created).1.root C, none) ∧
    Mirrors C (m.apply C consumed created).1 ∧
    (m.apply C consumed created).1.objects =
      applyObjects m.objects consumed created := by
  rcases hm.apply_cases consumed created with ⟨e, he⟩ | ⟨-, hm', ho, hr⟩
  · have hok := validateDelta_eq_ok.2 hd
    simp [Memory.apply, hok] at he
  · exact ⟨Prod.ext rfl hr, hm', ho⟩

theorem mirrors_newMemory : Mirrors C newMemory where
  coherent := State.coherent_newTree
  values := rfl
  stored := by
    intro id o ho
    simp [newMemory] at ho

/-- The stores a caller can hold: `NewMemory` after any calls of `Apply`,
successful or failing. -/
inductive Reachable (C : Crypto) : Memory → Prop
  | new : Reachable C newMemory
  | apply {m : Memory} (consumed : List ObjectID) (created : List Object) :
      Reachable C m → Reachable C (m.apply C consumed created).1

theorem Reachable.mirrors (hm : Reachable C m) : Mirrors C m := by
  induction hm with
  | new => exact mirrors_newMemory
  | apply consumed created _ ih =>
    rcases ih.apply_cases consumed created with ⟨e, he⟩ | ⟨-, h, -⟩
    · rw [he]
      exact ih
    · exact h

/-- After any calls of `Apply` the tree's values are exactly the hashes of
the live objects, every live object is valid, and a call that fails
leaves objects and root as they were. -/
theorem memory_mirrors_objects {m : Memory} (hm : Reachable C m) :
    (∀ id, m.tree.values id =
      (m.objects.lookup id).map fun o => (o.hash C).toList) ∧
    (∀ id o, m.objects.lookup id = some o → o.Valid) ∧
    (∀ consumed created e, (m.apply C consumed created).2.2 = some e →
      (m.apply C consumed created).1.objects = m.objects ∧
        (m.apply C consumed created).1.root C = m.root C) := by
  have h := hm.mirrors
  refine ⟨fun id => congrFun h.values id, fun id o ho => (h.stored id o ho).2,
    ?_⟩
  intro consumed created e he
  rcases h.apply_cases consumed created with ⟨e', he'⟩ | ⟨-, -, -, hok⟩
  · rw [he']
    exact ⟨rfl, rfl⟩
  · rw [hok] at he
    cases he

/-- A hash that keeps the first 32 bytes and a verifier that accepts
everything: enough to run the store on a concrete delta. -/
def truncatingCrypto : Crypto where
  sha256 := Bytes32.copy32
  onCurve := fun _ => true
  ecdsaVerify := fun _ _ _ _ => true

/-- Every node of a state tree has one digest; all else is added up. -/
def shallowCrypto : Crypto where
  sha256 := fun bs =>
    if (bs.drop 4).take 11 = utf8 "zephyr/smt/" then Vector.replicate 32 1
    else
      let sum := bs.foldl
        (fun acc b => (acc * 257 + b.toNat + 1) % (2 ^ 255 - 19)) 7
      Vector.ofFn fun i => UInt8.ofNat (sum / 2 ^ (8 * i.val))
  onCurve := fun _ => true
  ecdsaVerify := fun _ _ _ _ => true

theorem smtHash_shallowCrypto (x : SparseMerkle.Preimage Hash Bytes Hash) :
    smtHash shallowCrypto x = Vector.replicate 32 1 := by
  cases x <;> rfl

/-- So every store has the same root. -/
theorem Mirrors.root_shallowCrypto (hm : Mirrors shallowCrypto m) :
    m.root shallowCrypto = Vector.replicate 32 1 := by
  rw [Memory.root, hm.coherent.root_eq, SparseMerkle.root,
    SparseMerkle.node_eq_nodePre, smtHash_shallowCrypto]

/-- A coin-kind object under the id that is all ones. -/
def sampleObject : Object :=
  ⟨Vector.replicate 32 1, 1, Vector.replicate 32 2, .coin, []⟩

/-- The store that holds it: the tree's leaf is its hash, and creating it
a second time fails and changes nothing. -/
theorem memory_mirrors_objects_sample :
    let m := (newMemory.apply truncatingCrypto [] [sampleObject]).1
    m.tree.values sampleObject.id =
        some (sampleObject.hash truncatingCrypto).toList ∧
      (m.apply truncatingCrypto [] [sampleObject]).2.2 =
        some .objectExists ∧
      (m.apply truncatingCrypto [] [sampleObject]).1.root
        truncatingCrypto = m.root truncatingCrypto := by
  intro m
  have hfirst : validateDelta ∅ [] [sampleObject] = .ok () := by decide
  have hobjects : m.objects = applyObjects ∅ [] [sampleObject] := by
    simp [m, Memory.apply, newMemory, hfirst]
  have hsecond : validateDelta m.objects [] [sampleObject] =
      .error .objectExists := by
    rw [hobjects]
    decide
  have herr : (m.apply truncatingCrypto [] [sampleObject]).2.2 =
      some .objectExists := by
    simp [Memory.apply, hsecond]
  obtain ⟨hvalues, -, hfail⟩ := memory_mirrors_objects
    (Reachable.apply (C := truncatingCrypto) [] [sampleObject] Reachable.new)
  refine ⟨?_, herr, (hfail [] [sampleObject] _ herr).2⟩
  rw [hvalues, hobjects, lookup_applyObjects_created (by decide)
    List.mem_cons_self]
  rfl

/-- A simulation returns what applying the delta would return. -/
theorem simulate_eq_apply {C : Crypto} (hm : Coherent (smtHash C) m.tree)
    (consumed : List ObjectID) (created : List Object) :
    (m.simulate C consumed created).2 = (m.apply C consumed created).2 := by
  cases h : validateDelta m.objects consumed created with
  | error e => simp [Memory.simulate, Memory.apply, h]
  | ok u =>
    simp [Memory.simulate, Memory.apply, h, hm.preview_eq, hm.apply_root]

/-- A preview predicts the root of the update, for trees and for stores:
`Preview` returns what `Apply` would, and `Simulate` has the same root
and the same error as `Apply` while the store stays as it is. -/
theorem preview_and_simulate_predict_apply :
    (∀ {H : Type} [DecidableEq H] (A : State.Hasher H) (t : State.Tree H),
      State.Reachable A t → ∀ updates : State.Tree.Updates,
        t.preview A updates = (t.apply A updates).2) ∧
    (∀ (C : Crypto) (m : Memory), State.Reachable (smtHash C) m.tree →
      ∀ (consumed : List ObjectID) (created : List Object),
        (m.simulate C consumed created).2 =
            (m.apply C consumed created).2 ∧
          (m.simulate C consumed created).1 = m) := by
  have hpreview : ∀ {H : Type} [DecidableEq H] (A : State.Hasher H)
      (t : State.Tree H), State.Reachable A t →
      ∀ updates : State.Tree.Updates,
        t.preview A updates = (t.apply A updates).2 := by
    intro H _ A t ht updates
    rw [ht.coherent.preview_eq, ht.coherent.apply_root]
  refine ⟨hpreview, ?_⟩
  intro C m hm consumed created
  refine ⟨simulate_eq_apply hm.coherent consumed created, ?_⟩
  cases h : validateDelta m.objects consumed created with
  | error e => simp [Memory.simulate, h]
  | ok u => simp [Memory.simulate, h]

/-- On the empty tree and the empty store. -/
theorem preview_and_simulate_predict_apply_new :
    (State.newTree Hash).preview (smtHash truncatingCrypto)
        (deltaUpdates truncatingCrypto [] [sampleObject]) =
      ((State.newTree Hash).apply (smtHash truncatingCrypto)
        (deltaUpdates truncatingCrypto [] [sampleObject])).2 ∧
    (newMemory.simulate truncatingCrypto [] [sampleObject]).2 =
      (newMemory.apply truncatingCrypto [] [sampleObject]).2 :=
  ⟨preview_and_simulate_predict_apply.1 _ _ State.Reachable.new _,
    (preview_and_simulate_predict_apply.2 _ newMemory State.Reachable.new
      [] [sampleObject]).1⟩

end ZephyrChain.WorldState
