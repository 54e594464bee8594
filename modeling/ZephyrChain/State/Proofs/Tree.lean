/-
The incremental tree is the reference tree. `updateLocked` rewrites one
path of a pruned node map; the results here say that after any history
of updates the node map is the one canonical map of the current values,
and its root is the recursively defined digest of those values.

# The invariant

`Coherent` has two halves. The node map's *view* (`getNode` at every
depth and prefix) shows the reference digests, which comes from the
library's `shows_rehash`. And the map is *pruned*: it keeps no default
above the leaves and no key that is not a prefix. Together they leave no
freedom: `Coherent.ext` says that two coherent trees with the same
values are the same tree, node map included.

# Preview

`Preview` works on an overlay that is never pruned. Its view is rehashed
by the same library function, so the previewed root and the applied root
are both the reference digest of the overridden values.
-/
import ZephyrChain.State.Proofs.Bits

namespace ZephyrChain.State

open Lib Lib.SparseMerkle

variable {H : Type} {A : Hasher H}

-- ==== views

/-- The digests a node map reports at masked prefixes. -/
def view (A : Hasher H) (nodes : NodeMap H) : View Bytes32 H :=
  fun depth keyPrefix => (nodes ⟨depth, keyPrefix⟩).getD (defaults A depth)

theorem getNode_eq_view (nodes : NodeMap H) (depth : Nat) (p : Bytes32) :
    getNode A nodes depth p = view A nodes depth (prefixAtDepth p depth) :=
  rfl

theorem prefixAtDepth_idem (p : Bytes32) (depth : Nat) :
    prefixAtDepth (prefixAtDepth p depth) depth = prefixAtDepth p depth := by
  have h := mask_mask p depth depth
  rwa [Nat.min_self] at h

variable {depth : Nat}

/-- The prefix beside a key's path is masked already. -/
theorem prefixAtDepth_sibling (key : Bytes32) (hd : depth < treeDepth) :
    prefixAtDepth (toggleBit (prefixAtDepth key (depth + 1)) depth)
      (depth + 1) = toggleBit (prefixAtDepth key (depth + 1)) depth := by
  have h := mask_flip (prefixAtDepth key (depth + 1)) hd
    (Nat.lt_succ_self depth)
  exact h.trans (congrArg (toggleBit · depth)
    (prefixAtDepth_idem key (depth + 1)))

/-- The loop body computes the library's parent digest, for every lookup
that reads a view at masked prefixes. -/
theorem parentHash_eq_parentOf {lookup : Nat → Bytes32 → H}
    {L : View Bytes32 H}
    (hL : ∀ d p, lookup d p = L d (prefixAtDepth p d)) (key : Bytes32)
    (hd : depth < treeDepth) :
    parentHash A lookup key depth = parentOf A L key depth := by
  unfold parentHash parentOf
  simp only [hL, prefixAtDepth_sibling key hd, prefixAtDepth_idem,
    bitAt_eq_zero]
  change _ = A (combine (keyBit key depth) _ _)
  cases keyBit key depth
  case false => rfl
  case true => rfl

/-- Writing a digest, or dropping it when it is the default, sets the
view. -/
theorem view_update (nodes : NodeMap H) (depth : Nat) (p : Bytes32) (x : H)
    (v : Option H) (hv : v.getD (defaults A depth) = x) :
    view A (Function.update nodes ⟨depth, p⟩ v) =
      (view A nodes).set depth p x := by
  funext e q
  unfold view View.set
  by_cases h : e = depth ∧ q = p
  · obtain ⟨rfl, rfl⟩ := h
    simp [hv]
  · have hne : (⟨e, q⟩ : NodeKey) ≠ ⟨depth, p⟩ := by
      rwa [ne_eq, NodeKey.mk.injEq]
    rw [if_neg h, Function.update_of_ne hne]

theorem view_rehashPath [DecidableEq H] (key : Bytes32)
    (hd : depth ≤ treeDepth) (nodes : NodeMap H) :
    view A (rehashPath A key depth nodes) =
      rehash A key depth (view A nodes) := by
  induction depth generalizing nodes with
  | zero => rfl
  | succ depth ih =>
    rw [rehashPath, rehash, ih (by omega),
      view_update nodes depth _ (parentOf A (view A nodes) key depth)]
    · rfl
    · rw [parentHash_eq_parentOf (getNode_eq_view nodes) key (by omega)]
      split
      case isTrue heq => exact heq.symm
      case isFalse => rfl

-- ==== the invariant

/-- A kept node lies at a real prefix and, above the leaves, differs from
the default of its depth. -/
def Pruned (A : Hasher H) (nodes : NodeMap H) : Prop :=
  ∀ k h, nodes k = some h →
    k.depth ≤ treeDepth ∧ prefixAtDepth k.keyPrefix k.depth = k.keyPrefix ∧
      (k.depth < treeDepth → h ≠ defaults A k.depth)

structure Coherent (A : Hasher H) (t : Tree H) : Prop where
  shows : Shows A t.values (view A t.nodes)
  leaves : ∀ key, t.nodes ⟨treeDepth, key⟩ =
    (t.values key).map (leafHash A key)
  pruned : Pruned A t.nodes

theorem Pruned.update {nodes : NodeMap H} (hn : Pruned A nodes)
    {p : Bytes32} (hd : depth ≤ treeDepth)
    (hp : prefixAtDepth p depth = p) {v : Option H}
    (hv : ∀ h, v = some h → depth < treeDepth → h ≠ defaults A depth) :
    Pruned A (Function.update nodes ⟨depth, p⟩ v) := by
  intro k h hk
  by_cases hkey : k = ⟨depth, p⟩
  · subst hkey
    rw [Function.update_self] at hk
    exact ⟨hd, hp, hv h hk⟩
  · rw [Function.update_of_ne hkey] at hk
    exact hn k h hk

theorem Pruned.rehashPath [DecidableEq H] {nodes : NodeMap H}
    (hn : Pruned A nodes) (key : Bytes32) (hd : depth ≤ treeDepth) :
    Pruned A (State.rehashPath A key depth nodes) := by
  induction depth generalizing nodes with
  | zero => exact hn
  | succ depth ih =>
    refine ih (hn.update (by omega) (prefixAtDepth_idem key depth) ?_)
      (by omega)
    intro h hh _
    split at hh
    case isTrue => cases hh
    case isFalse hne =>
      obtain rfl := Option.some.inj hh
      exact hne

/-- Rehashing writes only above the depth it starts from. -/
theorem rehashPath_of_ge [DecidableEq H] (key : Bytes32)
    (nodes : NodeMap H) {k : NodeKey} (hk : depth ≤ k.depth) :
    rehashPath A key depth nodes k = nodes k := by
  induction depth generalizing nodes with
  | zero => rfl
  | succ depth ih =>
    have hne : k ≠ ⟨depth, prefixAtDepth key depth⟩ := by
      rintro rfl
      simp at hk
    rw [rehashPath, ih _ (by omega), Function.update_of_ne hne]

theorem coherent_newTree : Coherent A (newTree H) where
  shows := by
    intro d hd p hp
    have h : view A (newTree H).nodes d p = defaults A d := rfl
    rw [h, show (newTree H).values = fun _ => none from rfl, node_none]
    rfl
  leaves := fun _ => rfl
  pruned := by
    intro k h hk
    cases hk

theorem prefixAtDepth_full (key : Bytes32) :
    prefixAtDepth key treeDepth = key :=
  mask_full key le_rfl

variable {m : Hash → Option Bytes}

/-- The leaf digest is the hash of the map's leaf preimage. -/
theorem leafDigest_eq {key : Hash} {value : Option Bytes}
    (hm : m key = value) : leafDigest A key value = A (leafPre m key) := by
  rw [leafPre, hm]
  cases value with
  | none => rw [leafDigest, defaults, Nat.sub_self, defaultNode]
  | some value => rfl

section Update

variable [DecidableEq H]

/-- The node map an update leaves, with the leaf's key as it is. -/
theorem updateLocked_nodes (t : Tree H) (key : Hash)
    (value : Option Bytes) :
    (t.updateLocked A key value).nodes =
      rehashPath A key treeDepth
        (Function.update t.nodes ⟨treeDepth, key⟩
          (value.map (leafHash A key))) := by
  rw [Tree.updateLocked, prefixAtDepth_full]

@[simp] theorem updateLocked_values (t : Tree H) (key : Hash)
    (value : Option Bytes) :
    (t.updateLocked A key value).values =
      Function.update t.values key value := by
  rw [Tree.updateLocked]

@[simp] theorem update_fst (t : Tree H) (key : Hash)
    (value : Option Bytes) :
    (t.update A key value).1 = t.updateLocked A key value := by
  rw [Tree.update]

@[simp] theorem update_snd (t : Tree H) (key : Hash)
    (value : Option Bytes) :
    (t.update A key value).2 = (t.updateLocked A key value).root A := by
  rw [Tree.update]

theorem Coherent.updateLocked {t : Tree H} (ht : Coherent A t)
    (key : Hash) (value : Option Bytes) :
    Coherent A (t.updateLocked A key value) where
  shows := by
    have hleaf : (value.map (leafHash A key)).getD (defaults A treeDepth) =
        A (leafPre (Function.update t.values key value) key) := by
      have hm : Function.update t.values key value key = value :=
        Function.update_self ..
      refine Eq.trans ?_ (leafDigest_eq hm)
      cases value <;> rfl
    rw [updateLocked_values, updateLocked_nodes, view_rehashPath key le_rfl,
      view_update _ _ _ _ _ hleaf]
    exact shows_rehash ht.shows key value
  leaves := by
    intro k
    rw [updateLocked_values, updateLocked_nodes,
      rehashPath_of_ge key _ (le_refl treeDepth)]
    by_cases hk : k = key
    · subst hk
      rw [Function.update_self, Function.update_self]
    · have hne : (⟨treeDepth, k⟩ : NodeKey) ≠ ⟨treeDepth, key⟩ := by
        simpa using hk
      rw [Function.update_of_ne hne, Function.update_of_ne hk, ht.leaves k]
  pruned := by
    rw [updateLocked_nodes]
    refine (ht.pruned.update le_rfl (prefixAtDepth_full key) ?_).rehashPath
      key le_rfl
    intro h _ hlt
    exact absurd hlt (lt_irrefl _)

end Update

variable {t : Tree H}

/-- The values of a coherent tree determine its node map. -/
theorem Coherent.ext {t' : Tree H} (ht : Coherent A t)
    (ht' : Coherent A t') (h : t.values = t'.values) : t = t' := by
  refine Tree.ext h ?_
  funext k
  obtain ⟨depth, p⟩ := k
  -- outside the tree both maps are empty
  have hout : ∀ {s : Tree H}, Coherent A s →
      ¬ (depth ≤ treeDepth ∧ prefixAtDepth p depth = p) →
      s.nodes ⟨depth, p⟩ = none := by
    intro s hs hno
    cases hn : s.nodes ⟨depth, p⟩ with
    | none => rfl
    | some x =>
      have hk := hs.pruned _ x hn
      exact absurd ⟨hk.1, hk.2.1⟩ hno
  by_cases hin : depth ≤ treeDepth ∧ prefixAtDepth p depth = p
  · obtain ⟨hd, hp⟩ := hin
    rcases Nat.eq_or_lt_of_le hd with rfl | hlt
    · rw [ht.leaves p, ht'.leaves p, h]
    · -- above the leaves a node is kept exactly when it is not the default
      have hview : view A t.nodes depth p = view A t'.nodes depth p := by
        rw [ht.shows depth hd p hp, ht'.shows depth hd p hp, h]
      unfold view at hview
      cases hn : t.nodes ⟨depth, p⟩ with
      | none =>
        cases hn' : t'.nodes ⟨depth, p⟩ with
        | none => rfl
        | some y =>
          rw [hn, hn'] at hview
          exact absurd hview.symm ((ht'.pruned _ y hn').2.2 hlt)
      | some x =>
        cases hn' : t'.nodes ⟨depth, p⟩ with
        | none =>
          rw [hn, hn'] at hview
          exact absurd hview ((ht.pruned _ x hn).2.2 hlt)
        | some y =>
          rw [hn, hn'] at hview
          exact congrArg some hview
  · rw [hout ht hin, hout ht' hin]

/-- The root of a coherent tree is the reference digest of its values. -/
theorem Coherent.root_eq (ht : Coherent A t) :
    t.root A = SparseMerkle.root A t.values := by
  have hz : prefixAtDepth Bytes32.zero 0 = Bytes32.zero := rfl
  rw [Tree.root, getNode_eq_view, hz, ht.shows 0 (Nat.zero_le _) _ hz,
    Nat.sub_zero]
  rfl

-- ==== update maps

/-- Values after an update map: a mapped key takes its new value (or
becomes absent), every other key keeps its own. -/
def override (m : Hash → Option Bytes) (updates : Tree.Updates) :
    Hash → Option Bytes :=
  fun key => match updates.lookup key with
    | some value => value
    | none => m key

/-- Writing a row of keys, each with the value `f` gives it, in any order
and with any repetition. -/
theorem foldl_update_eq {α : Type} (f : Hash → Option Bytes)
    (key : α → Hash) (xs : List α) (m : Hash → Option Bytes) (k : Hash) :
    xs.foldl (fun m x => Function.update m (key x) (f (key x))) m k =
      if k ∈ xs.map key then f k else m k := by
  induction xs generalizing m with
  | nil => simp
  | cons x xs ih =>
    rw [List.foldl_cons, ih]
    by_cases hk : k ∈ xs.map key
    · have hk' : k ∈ (x :: xs).map key := List.mem_cons_of_mem _ hk
      rw [if_pos hk, if_pos hk']
    · by_cases hx : k = key x
      · subst hx
        simp
      · rw [if_neg hk, Function.update_of_ne hx, if_neg]
        simpa [hx] using hk

theorem override_eq_ite (m : Hash → Option Bytes) (updates : Tree.Updates)
    (k : Hash) :
    override m updates k =
      if k ∈ updates.keys then (updates.lookup k).getD none else m k := by
  unfold override
  cases h : updates.lookup k with
  | none =>
    have hk : k ∉ updates.keys := AList.lookup_eq_none.1 h
    rw [if_neg hk]
  | some value =>
    have hk : k ∈ updates.keys :=
      AList.lookup_isSome.1 (by rw [h]; rfl)
    rw [if_pos hk]
    rfl

/-- One iteration of a map writes its entries: the values after the loop
are the overridden ones, in whatever order the entries came. -/
theorem foldl_entries_eq (m : Hash → Option Bytes) (updates : Tree.Updates) :
    updates.entries.foldl (fun m e => Function.update m e.1 e.2) m =
      override m updates := by
  have hval : ∀ e ∈ updates.entries, (updates.lookup e.1).getD none = e.2 := by
    intro e he
    have h : e.2 ∈ updates.lookup e.1 := AList.mem_lookup_iff.2 he
    rw [Option.mem_def.1 h]
    rfl
  have hcongr : updates.entries.foldl
      (fun m e => Function.update m e.1 e.2) m =
      updates.entries.foldl (fun m e =>
        Function.update m e.1 ((updates.lookup e.1).getD none)) m := by
    refine List.foldl_ext _ _ m fun m e he => ?_
    rw [hval e he]
  funext k
  rw [hcongr, foldl_update_eq (fun k => (updates.lookup k).getD none),
    override_eq_ite]
  rfl

theorem override_congr {updates updates' : Tree.Updates}
    (h : updates.entries.Perm updates'.entries) :
    override m updates = override m updates' := by
  funext k
  rw [override, override, AList.perm_lookup h]

variable [DecidableEq H]

/-- `Apply` keeps the invariant and overrides the values. -/
theorem Coherent.foldl_updateLocked (ht : Coherent A t)
    (entries : List (Sigma fun _ : Hash => Option Bytes)) :
    Coherent A (entries.foldl
        (fun t e => t.updateLocked A e.1 e.2) t) ∧
      (entries.foldl (fun t e => t.updateLocked A e.1 e.2) t).values =
        entries.foldl (fun m e => Function.update m e.1 e.2) t.values := by
  induction entries generalizing t with
  | nil => exact ⟨ht, rfl⟩
  | cons e entries ih =>
    obtain ⟨hc, hv⟩ := ih (ht.updateLocked e.1 e.2)
    refine ⟨hc, ?_⟩
    rw [List.foldl_cons, List.foldl_cons, hv, updateLocked_values]

theorem Coherent.apply (ht : Coherent A t) (updates : Tree.Updates) :
    Coherent A (t.apply A updates).1 :=
  (ht.foldl_updateLocked updates.entries).1

theorem Coherent.apply_values (ht : Coherent A t) (updates : Tree.Updates) :
    (t.apply A updates).1.values = override t.values updates := by
  rw [← foldl_entries_eq]
  exact (ht.foldl_updateLocked updates.entries).2

theorem Coherent.apply_root (ht : Coherent A t) (updates : Tree.Updates) :
    (t.apply A updates).2 =
      SparseMerkle.root A (override t.values updates) := by
  rw [← ht.apply_values updates]
  exact (ht.apply updates).root_eq

-- ==== runs

/-- The trees a caller can hold: `NewTree` and every result of `Update`
and `Apply`. -/
inductive Reachable (A : Hasher H) : Tree H → Prop
  | new : Reachable A (newTree H)
  | update {t : Tree H} (key : Hash) (value : Option Bytes) :
      Reachable A t → Reachable A (t.update A key value).1
  | apply {t : Tree H} (updates : Tree.Updates) :
      Reachable A t → Reachable A (t.apply A updates).1

theorem Reachable.coherent (ht : Reachable A t) : Coherent A t := by
  induction ht with
  | new => exact coherent_newTree
  | update key value _ ih => exact ih.updateLocked key value
  | apply updates _ ih => exact ih.apply updates

/-- Two histories that end in the same values end in the same tree. -/
theorem Reachable.eq_of_values_eq {t' : Tree H} (ht : Reachable A t)
    (ht' : Reachable A t') (h : t.values = t'.values) : t = t' :=
  ht.coherent.ext ht'.coherent h

/-- Inserting an absent key and deleting it again restores the tree. -/
theorem Coherent.insert_delete (ht : Coherent A t) {key : Hash}
    (hk : t.values key = none) (value : Bytes) :
    (t.updateLocked A key (some value)).updateLocked A key none = t := by
  refine ((ht.updateLocked key _).updateLocked key none).ext ht ?_
  simp only [updateLocked_values, Function.update_idem]
  rw [← hk, Function.update_eq_self]

/-- The root of every reachable tree is the recursively defined digest of
its current values and nothing else; so histories with the same values
meet in the same tree, an update map gives one result in every iteration
order, and deleting a fresh key undoes its insertion, node map
included. -/
theorem tree_root_eq_reference {t : Tree H} (ht : Reachable A t) :
    t.root A = SparseMerkle.root A t.values ∧
      (∀ t', Reachable A t' → t'.values = t.values →
        t'.root A = t.root A ∧ t'.nodes = t.nodes) ∧
      (∀ updates updates' : Tree.Updates,
        updates.entries.Perm updates'.entries →
        t.apply A updates = t.apply A updates') ∧
      (∀ key value, t.values key = none →
        ((t.update A key (some value)).1.update A key none).2 = t.root A ∧
        ((t.update A key (some value)).1.update A key none).1.nodes =
          t.nodes) := by
  have hc := ht.coherent
  refine ⟨hc.root_eq, ?_, ?_, ?_⟩
  · intro t' ht' hv
    obtain rfl := ht'.eq_of_values_eq ht hv
    exact ⟨rfl, rfl⟩
  · intro updates updates' hperm
    have htree : (t.apply A updates).1 = (t.apply A updates').1 := by
      refine (hc.apply updates).ext (hc.apply updates') ?_
      rw [hc.apply_values, hc.apply_values, override_congr hperm]
    refine Prod.ext htree ?_
    rw [hc.apply_root, hc.apply_root, override_congr hperm]
  · intro key value hk
    rw [update_fst, update_fst, update_snd, hc.insert_delete hk value]
    exact ⟨rfl, rfl⟩

/-- A node hash without any collision: preimages numbered by their tag
and their content. -/
def numberHasher : Hasher Nat
  | .empty => 0
  | .leaf key value =>
    3 * Nat.pair value.length (ofBe (key.toList ++ value)) + 1
  | .branch left right => 3 * Nat.pair left right + 2

/-- A tree with one stored value has the reference root. -/
theorem tree_root_eq_reference_one :
    ((newTree Nat).update numberHasher Bytes32.zero (some [7])).1.root
        numberHasher =
      SparseMerkle.root numberHasher
        ((newTree Nat).update numberHasher Bytes32.zero (some [7])).1.values :=
  (tree_root_eq_reference (Reachable.update _ _ Reachable.new)).1

-- ==== preview

/-- The digests an overlay reports over a tree at masked prefixes. -/
def overlayView (A : Hasher H) (t : Tree H) (overlay : NodeMap H) :
    View Bytes32 H :=
  fun depth p => match overlay ⟨depth, p⟩ with
    | some hash => hash
    | none => view A t.nodes depth p

omit [DecidableEq H] in
theorem overlayLookup_eq_view (t : Tree H) (overlay : NodeMap H)
    (depth : Nat) (p : Bytes32) :
    t.overlayLookup A overlay depth p =
      overlayView A t overlay depth (prefixAtDepth p depth) :=
  rfl

omit [DecidableEq H] in
theorem overlayView_update (t : Tree H) (overlay : NodeMap H) (depth : Nat)
    (p : Bytes32) (x : H) :
    overlayView A t (Function.update overlay ⟨depth, p⟩ (some x)) =
      (overlayView A t overlay).set depth p x := by
  funext e q
  unfold overlayView View.set
  by_cases h : e = depth ∧ q = p
  · obtain ⟨rfl, rfl⟩ := h
    simp
  · have hne : (⟨e, q⟩ : NodeKey) ≠ ⟨depth, p⟩ := by
      rwa [ne_eq, NodeKey.mk.injEq]
    rw [if_neg h, Function.update_of_ne hne]

omit [DecidableEq H] in
theorem overlayView_overlayPath (t : Tree H) (key : Bytes32)
    (hd : depth ≤ treeDepth) (overlay : NodeMap H) :
    overlayView A t (t.overlayPath A key depth overlay) =
      rehash A key depth (overlayView A t overlay) := by
  induction depth generalizing overlay with
  | zero => rfl
  | succ depth ih =>
    rw [Tree.overlayPath, rehash, ih (by omega), overlayView_update,
      parentHash_eq_parentOf (overlayLookup_eq_view t overlay) key
        (by omega)]
    rfl

omit [DecidableEq H] in
/-- One key of `Preview` updates the map the overlay shows. -/
theorem shows_overlayKey {overlay : NodeMap H}
    (hL : Shows A m (overlayView A t overlay)) (key : Hash)
    (value : Option Bytes) :
    Shows A (Function.update m key value)
      (overlayView A t (t.overlayKey A overlay key value)) := by
  have hleaf : leafDigest A key value =
      A (leafPre (Function.update m key value) key) :=
    leafDigest_eq (Function.update_self key value m)
  rw [Tree.overlayKey, overlayView_overlayPath t key le_rfl,
    overlayView_update, hleaf]
  exact shows_rehash hL key value

omit [DecidableEq H] in
theorem shows_overlayKeys (f : Hash → Option Bytes) (keys : List Hash)
    {overlay : NodeMap H} (hL : Shows A m (overlayView A t overlay)) :
    Shows A (keys.foldl (fun m k => Function.update m k (f k)) m)
      (overlayView A t (keys.foldl
        (fun overlay k => t.overlayKey A overlay k (f k)) overlay)) := by
  induction keys generalizing m overlay with
  | nil => exact hL
  | cons k keys ih =>
    rw [List.foldl_cons, List.foldl_cons]
    exact ih (shows_overlayKey hL k (f k))

omit [DecidableEq H] in
/-- A view of `m` reports the digest of `m` at the root. -/
theorem shows_root_eq {L : View Bytes32 H} (hL : Shows A m L) :
    L 0 Bytes32.zero = SparseMerkle.root A m := by
  have hz : prefixAtDepth Bytes32.zero 0 = Bytes32.zero := rfl
  rw [hL 0 (Nat.zero_le _) _ hz, Nat.sub_zero]
  rfl

omit [DecidableEq H] in
/-- The previewed root is the digest of the overridden values. -/
theorem Coherent.preview_eq (ht : Coherent A t) (updates : Tree.Updates) :
    t.preview A updates =
      SparseMerkle.root A (override t.values updates) := by
  unfold Tree.preview
  split
  case isTrue hempty =>
    have hnil : updates.entries = [] := List.isEmpty_iff.1 hempty
    rw [ht.root_eq, ← foldl_entries_eq, hnil, List.foldl_nil]
  case isFalse =>
    have hL : Shows A t.values (overlayView A t fun _ => none) := ht.shows
    have hfold := shows_root_eq (shows_overlayKeys
      (fun k => (updates.lookup k).getD none)
      (updates.keys.insertionSort Bytes32.Before) hL)
    have hvals : (updates.keys.insertionSort Bytes32.Before).foldl
        (fun m k => Function.update m k ((updates.lookup k).getD none))
        t.values = override t.values updates := by
      funext k
      have h := foldl_update_eq (fun k => (updates.lookup k).getD none) id
        (updates.keys.insertionSort Bytes32.Before) t.values k
      simp only [id_eq, List.map_id, List.mem_insertionSort] at h
      rw [h, override_eq_ite]
    rw [hvals] at hfold
    simp only
    rw [← hfold, overlayView]
    split
    case h_1 hroot => rw [hroot]
    case h_2 hroot =>
      rw [hroot]
      rfl

end ZephyrChain.State
