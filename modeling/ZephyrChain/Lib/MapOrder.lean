/-
Loops over a map whose order is not fixed.

A language may visit the entries of a map in any order, a new one for
each loop. `MapOrder` is one run's choice of orders. The loops that do
not depend on it are those in which an iteration reads and writes only
the entry of its own key (`OwnKey`): whether such a loop fails, and the
map it ends with, is a matter of each entry alone.

Which error a failing loop reports can depend on the order. `Agree`
compares two runs as far as that: both fail, or both succeed with related
results.
-/
import ZephyrChain.Lib.Except
import Mathlib.Data.List.AList
import Mathlib.Data.Finmap

namespace ZephyrChain.Lib

-- ==== orders

/-- The order in which each loop of a run visits a map. -/
structure MapOrder where
  visit : Nat → {α : Type} → List α → List α
  perm : ∀ (loop : Nat) {α : Type} (xs : List α), (visit loop xs).Perm xs

namespace MapOrder

/-- Every map is visited as it is stored. -/
def stored : MapOrder := ⟨fun _ _ xs => xs, fun _ _ xs => .refl xs⟩

variable {κ β : Type}

/-- The map as one loop sees it. -/
def reorder (order : MapOrder) (loop : Nat) (m : AList fun _ : κ => β) :
    AList fun _ : κ => β :=
  ⟨order.visit loop m.entries,
    (List.perm_nodupKeys (order.perm loop m.entries)).2 m.nodupKeys⟩

theorem entries_reorder (order : MapOrder) (loop : Nat)
    (m : AList fun _ : κ => β) :
    (order.reorder loop m).entries.Perm m.entries :=
  order.perm loop m.entries

theorem keys_reorder (order : MapOrder) (loop : Nat)
    (m : AList fun _ : κ => β) : (order.reorder loop m).keys.Perm m.keys :=
  (order.entries_reorder loop m).map Sigma.fst

end MapOrder

-- ==== outcomes

/-- Both computations fail, or both succeed with related results. -/
def Agree {ε α β : Type} (R : α → β → Prop) :
    Except ε α → Except ε β → Prop
  | .ok a, .ok b => R a b
  | .error _, .error _ => True
  | _, _ => False

section Agree

variable {ε α β α' β' : Type} {R : α → β → Prop} {S : α' → β' → Prop}
  {x : Except ε α} {y : Except ε β}

theorem agree_iff : Agree R x y ↔
    (∀ a, x = .ok a → ∃ b, y = .ok b ∧ R a b) ∧
      ∀ b, y = .ok b → ∃ a, x = .ok a := by
  cases x with
  | error _ =>
    cases y with
    | error _ => simp [Agree]
    | ok _ => simp [Agree]
  | ok _ =>
    cases y with
    | error _ => simp [Agree]
    | ok _ => simp [Agree]

theorem agree_refl {R : α → α → Prop} (h : ∀ a, R a a) (x : Except ε α) :
    Agree R x x :=
  agree_iff.2 ⟨fun a ha => ⟨a, ha, h a⟩, fun a ha => ⟨a, ha⟩⟩

theorem Agree.symm {R' : β → α → Prop} (hR : ∀ a b, R a b → R' b a)
    (h : Agree R x y) : Agree R' y x := by
  obtain ⟨hok, hback⟩ := agree_iff.1 h
  refine agree_iff.2 ⟨fun b hb => ?_, fun a ha => ?_⟩
  · obtain ⟨a, ha⟩ := hback b hb
    obtain ⟨b', hb', hab⟩ := hok a ha
    obtain rfl := Except.ok.inj (hb.symm.trans hb')
    exact ⟨a, ha, hR a b hab⟩
  · obtain ⟨b, hb, -⟩ := hok a ha
    exact ⟨b, hb⟩

theorem Agree.trans {R' : β → α' → Prop} {T : α → α' → Prop}
    {z : Except ε α'} (hR : ∀ a b c, R a b → R' b c → T a c)
    (h : Agree R x y) (h' : Agree R' y z) : Agree T x z := by
  obtain ⟨hok, hback⟩ := agree_iff.1 h
  obtain ⟨hok', hback'⟩ := agree_iff.1 h'
  refine agree_iff.2 ⟨fun a ha => ?_, fun c hc => ?_⟩
  · obtain ⟨b, hb, hab⟩ := hok a ha
    obtain ⟨c, hc, hbc⟩ := hok' b hb
    exact ⟨c, hc, hR a b c hab hbc⟩
  · obtain ⟨b, hb⟩ := hback' c hc
    exact hback b hb

/-- Computations that agree, continued by computations that agree on
related results. -/
theorem Agree.bind {f : α → Except ε α'} {g : β → Except ε β'}
    (h : Agree R x y) (hnext : ∀ a b, R a b → Agree S (f a) (g b)) :
    Agree S (x >>= f) (y >>= g) := by
  cases x with
  | error _ =>
    cases y with
    | error _ => trivial
    | ok _ => cases h
  | ok a =>
    cases y with
    | error _ => cases h
    | ok b => exact hnext a b h

/-- The same computation, continued by computations that agree. -/
theorem agree_bind (x : Except ε α) {f : α → Except ε α'}
    {g : α → Except ε β'} (h : ∀ a, Agree S (f a) (g a)) :
    Agree S (x >>= f) (x >>= g) := by
  cases x with
  | error _ => trivial
  | ok a => exact h a

/-- A check that is made in some cases only. -/
theorem agree_ite {c : Prop} [Decidable c] (x : Except ε Unit)
    {f : Unit → Except ε α'} {g : Unit → Except ε β'}
    (h : Agree S (f ()) (g ())) :
    Agree S (if c then x >>= f else f ()) (if c then x >>= g else g ()) := by
  split
  case isTrue => exact agree_bind x fun _ => h
  case isFalse => exact h

/-- Two checks of the same condition. -/
theorem agree_refuse {c c' : Prop} [Decidable c] [Decidable c']
    (err err' : ε) (h : c ↔ c') {f : Unit → Except ε α'}
    {g : Unit → Except ε β'} (hnext : ¬ c → Agree S (f ()) (g ())) :
    Agree S (refuse c err >>= f) (refuse c' err' >>= g) := by
  by_cases hc : c
  · rw [refuse_of err hc, refuse_of err' (h.1 hc)]
    trivial
  · rw [refuse_of_not err hc, refuse_of_not err' fun hc' => hc (h.2 hc')]
    exact hnext hc

theorem Agree.failWith (h : Agree R x y) (err : α') :
    Agree R (failWith err x) (failWith err y) := by
  cases x with
  | error _ =>
    cases y with
    | error _ => trivial
    | ok _ => cases h
  | ok _ =>
    cases y with
    | error _ => cases h
    | ok _ => exact h

theorem agree_map (f : α → β) (x : Except ε α) :
    Agree (fun b a => b = f a) (x.map f) x := by
  cases x with
  | error _ => trivial
  | ok a => exact rfl

end Agree

-- ==== own keys

variable {ε κ β γ : Type} [DecidableEq κ]

/-- Two maps with the same entries. -/
def SameMap (m m' : AList fun _ : κ => β) : Prop :=
  ∀ k, m.lookup k = m'.lookup k

theorem SameMap.entries {m m' : AList fun _ : κ => β} (h : SameMap m m') :
    m.entries.Perm m'.entries :=
  AList.toFinmap_eq.1 (Finmap.ext_lookup h)

theorem SameMap.keys {m m' : AList fun _ : κ => β} (h : SameMap m m') :
    m.keys.Perm m'.keys :=
  h.entries.map Sigma.fst

/-- An iteration reads the entry of its own key, fails or succeeds by
what it finds there, and changes no other entry. -/
structure OwnKey
    (step : (AList fun _ : κ => β) → (Σ _ : κ, γ) →
      Except ε (AList fun _ : κ => β))
    (entry : (Σ _ : κ, γ) → Option β → Except ε (Option β)) : Prop where
  ok : ∀ {m m' a}, step m a = .ok m' →
    ∃ b, entry a (m.lookup a.1) = .ok b ∧
      ∀ k, m'.lookup k = if k = a.1 then b else m.lookup k
  total : ∀ {m a b}, entry a (m.lookup a.1) = .ok b →
    ∃ m', step m a = .ok m'

namespace OwnKey

variable {step : (AList fun _ : κ => β) → (Σ _ : κ, γ) →
    Except ε (AList fun _ : κ => β)}
  {entry : (Σ _ : κ, γ) → Option β → Except ε (Option β)}
variable {xs : List (Σ _ : κ, γ)}

/-- What a completed loop over different keys did to each entry. -/
theorem foldlM_ok (h : OwnKey step entry)
    (hkeys : (xs.map Sigma.fst).Nodup) {m m' : AList fun _ : κ => β}
    (hloop : xs.foldlM step m = .ok m') :
    (∀ a ∈ xs, entry a (m.lookup a.1) = .ok (m'.lookup a.1)) ∧
      ∀ k, k ∉ xs.map Sigma.fst → m'.lookup k = m.lookup k := by
  induction xs generalizing m with
  | nil =>
    simp only [List.foldlM_nil, pure_eq_ok] at hloop
    subst hloop
    exact ⟨by simp, fun _ _ => rfl⟩
  | cons a xs ih =>
    simp only [List.foldlM_cons, bind_eq_ok] at hloop
    obtain ⟨m₁, hstep, hloop⟩ := hloop
    obtain ⟨hnew, hkeys⟩ := List.nodup_cons.1 hkeys
    obtain ⟨hall, hrest⟩ := ih hkeys hloop
    obtain ⟨b, hb, hlookup⟩ := h.ok hstep
    refine ⟨List.forall_mem_cons.2 ⟨?_, fun x hx => ?_⟩, fun k hk => ?_⟩
    · rw [hrest a.1 hnew, hlookup a.1, if_pos rfl]
      exact hb
    · have hne : x.1 ≠ a.1 := fun heq =>
        hnew (heq ▸ List.mem_map_of_mem hx)
      have hx' := hall x hx
      rwa [hlookup x.1, if_neg hne] at hx'
    · rw [List.map_cons, List.mem_cons, not_or] at hk
      rw [hrest k hk.2, hlookup k, if_neg hk.1]

/-- The loop completes when every entry alone allows it. -/
theorem foldlM_total (h : OwnKey step entry)
    (hkeys : (xs.map Sigma.fst).Nodup) {m : AList fun _ : κ => β}
    (hall : ∀ a ∈ xs, ∃ b, entry a (m.lookup a.1) = .ok b) :
    ∃ m', xs.foldlM step m = .ok m' := by
  induction xs generalizing m with
  | nil => exact ⟨m, rfl⟩
  | cons a xs ih =>
    obtain ⟨hnew, hkeys⟩ := List.nodup_cons.1 hkeys
    obtain ⟨⟨b, hb⟩, hall⟩ := List.forall_mem_cons.1 hall
    obtain ⟨m₁, hstep⟩ := h.total hb
    obtain ⟨_, _, hlookup⟩ := h.ok hstep
    have hnext : ∀ x ∈ xs, ∃ b, entry x (m₁.lookup x.1) = .ok b := by
      intro x hx
      have hne : x.1 ≠ a.1 := fun heq =>
        hnew (heq ▸ List.mem_map_of_mem hx)
      rw [hlookup x.1, if_neg hne]
      exact hall x hx
    obtain ⟨m', hloop⟩ := ih hkeys hnext
    refine ⟨m', ?_⟩
    rw [List.foldlM_cons, hstep]
    exact hloop

/-- The order of the visits does not matter, nor how the map the loop
starts from is stored. -/
theorem foldlM_perm (h : OwnKey step entry) {xs' : List (Σ _ : κ, γ)}
    (hp : xs.Perm xs') (hkeys : (xs.map Sigma.fst).Nodup)
    {m₁ m₂ m : AList fun _ : κ => β} (hsame : SameMap m₁ m₂)
    (hloop : xs.foldlM step m₁ = .ok m) :
    ∃ m', xs'.foldlM step m₂ = .ok m' ∧ SameMap m m' := by
  obtain ⟨hall, hrest⟩ := h.foldlM_ok hkeys hloop
  have hkeys' : (xs'.map Sigma.fst).Nodup :=
    (hp.map Sigma.fst).nodup_iff.1 hkeys
  have hentry : ∀ a ∈ xs', entry a (m₂.lookup a.1) = .ok (m.lookup a.1) := by
    intro a ha
    rw [← hsame a.1]
    exact hall a (hp.mem_iff.2 ha)
  obtain ⟨m', hloop'⟩ := h.foldlM_total hkeys' fun a ha => ⟨_, hentry a ha⟩
  obtain ⟨hall', hrest'⟩ := h.foldlM_ok hkeys' hloop'
  refine ⟨m', hloop', fun k => ?_⟩
  by_cases hk : k ∈ xs'.map Sigma.fst
  · obtain ⟨a, ha, rfl⟩ := List.mem_map.1 hk
    exact Except.ok.inj ((hentry a ha).symm.trans (hall' a ha))
  · have hk' : k ∉ xs.map Sigma.fst := fun hmem =>
      hk ((hp.map Sigma.fst).mem_iff.1 hmem)
    rw [hrest k hk', hrest' k hk, hsame k]

/-- A loop over a map agrees with itself in every order. -/
theorem agree_reorder (h : OwnKey step entry) (order : MapOrder)
    (loop : Nat) (visited : AList fun _ : κ => γ)
    {m₁ m₂ : AList fun _ : κ => β} (hsame : SameMap m₁ m₂) :
    Agree SameMap ((order.reorder loop visited).entries.foldlM step m₁)
      (visited.entries.foldlM step m₂) := by
  have hp := order.entries_reorder loop visited
  refine agree_iff.2 ⟨fun m hm => ?_, fun m hm => ?_⟩
  · exact h.foldlM_perm hp (order.reorder loop visited).nodupKeys hsame hm
  · obtain ⟨m', hm', _⟩ := h.foldlM_perm hp.symm visited.nodupKeys
      (fun k => (hsame k).symm) hm
    exact ⟨m', hm'⟩

end OwnKey

end ZephyrChain.Lib
