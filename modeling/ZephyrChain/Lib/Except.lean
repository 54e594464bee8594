/-
Guarded computations. A function that fails with the first check it
does not pass is written in `Except` as a row of `refuse` guards and
binds; the lemmas here read such a function backwards, from "it
returned `b`" to the list of facts that must have held on the way.

# Reading a result backwards

`bind_eq_ok` peels one bind, `refuse_eq_ok` one guard. `failWith`
replaces a callee's error by the caller's, `require` turns a missing map
entry into an error. `ok_iff` holds the rules for all of them, so
`simp only [ok_iff] at h` turns a successful run into an `∃`/`∧` chain
in the order of the source.

# Loops

A `for` loop that may return early is `List.foldlM` in `Except`.
`foldlM_invariant` says that what one iteration preserves, the loop
preserves; `foldlM_prefix` is the same rule for an invariant that speaks
of the elements consumed so far, and `forM_eq_ok` reads a loop that only
checks.
-/
import Mathlib.Logic.Basic
import Mathlib.Data.List.Basic

namespace ZephyrChain.Lib

variable {ε α β σ : Type}
variable {x : Except ε α}

/-- A call that can be seen to succeed returns something. -/
theorem exists_of_isOk (h : x.isOk = true) : ∃ a, x = .ok a := by
  cases x with
  | error _ => cases h
  | ok a => exact ⟨a, rfl⟩

variable {a : α}

/-- What holds of a list and of one more element holds of the list with
that element behind it. -/
theorem forall_mem_concat {p : α → Prop} {xs : List α} (h : ∀ x ∈ xs, p x)
    (ha : p a) : ∀ x ∈ xs ++ [a], p x :=
  List.forall_mem_append.2 ⟨h, List.forall_mem_singleton.2 ha⟩

-- ==== guards

/-- Fail with `e` when the condition `c` holds: the source's
`if c { return e }`. -/
def refuse (c : Prop) [Decidable c] (e : ε) : Except ε Unit :=
  if c then .error e else .ok ()

variable {c : Prop}

@[simp] theorem refuse_eq_ok [Decidable c] {e : ε} {x : Unit} :
    refuse c e = .ok x ↔ ¬ c := by
  unfold refuse
  split <;> simp_all

theorem refuse_of_not [Decidable c] (e : ε) (h : ¬ c) :
    refuse c e = .ok () :=
  refuse_eq_ok.2 h

theorem refuse_of [Decidable c] (e : ε) (h : c) :
    refuse c e = .error e := by
  simp [refuse, h]

theorem refuse_congr {c' : Prop} [Decidable c] [Decidable c'] (e : ε)
    (h : c ↔ c') : refuse c e = refuse c' e := by
  simp only [refuse, h]

-- ==== binds

variable {f : α → Except ε β}

@[simp] theorem bind_eq_ok {b : β} :
    (x >>= f) = .ok b ↔ ∃ a, x = .ok a ∧ f a = .ok b := by
  cases x with
  | error e => simp [bind, Except.bind]
  | ok a => simp [bind, Except.bind]

/-- A check that returns nothing binds a value that says nothing. -/
@[simp] theorem exists_unit {p : Unit → Prop} : (∃ a, p a) ↔ p () :=
  ⟨fun ⟨_, h⟩ => h, fun h => ⟨(), h⟩⟩

@[simp] theorem ok_bind (a : α) (f : α → Except ε β) :
    ((Except.ok a : Except ε α) >>= f) = f a := rfl

@[simp] theorem error_bind (e : ε) (f : α → Except ε β) :
    ((Except.error e : Except ε α) >>= f) = .error e := rfl

@[simp] theorem pure_eq_ok (a b : α) :
    (pure a : Except ε α) = .ok b ↔ a = b := by
  simp [pure, Except.pure]

theorem map_some_eq_ok : some <$> x = .ok (some a) ↔ x = .ok a := by
  cases x with
  | error e => simp [Functor.map, Except.map]
  | ok a => simp [Functor.map, Except.map]

theorem map_eq_ok {f : α → β} {b : β} :
    f <$> x = .ok b ↔ ∃ a, x = .ok a ∧ f a = b := by
  cases x with
  | error e => simp [Functor.map, Except.map]
  | ok a => simp [Functor.map, Except.map]

@[simp] theorem mapError_eq_ok {ε' : Type} {g : ε → ε'} {b : α} :
    x.mapError g = .ok b ↔ x = .ok b := by
  cases x <;> simp [Except.mapError]

/-- Run a computation and report every failure of it as `e`. -/
def failWith {ε' : Type} (e : ε') (x : Except ε α) : Except ε' α :=
  x.mapError fun _ => e

@[simp] theorem failWith_eq_ok {ε' : Type} {e : ε'} :
    failWith e x = .ok a ↔ x = .ok a :=
  mapError_eq_ok

@[simp] theorem failWith_ok {ε' : Type} {e : ε'} (a : α) :
    failWith e (Except.ok a : Except ε α) = .ok a := rfl

/-- A value that must be there. -/
def require (x : Option α) (e : ε) : Except ε α :=
  match x with
  | some a => .ok a
  | none => .error e

@[simp] theorem require_eq_ok {x : Option α} {e : ε} :
    require x e = .ok a ↔ x = some a := by
  cases x <;> simp [require]

/-- The rules that read a successful run backwards, as one simp set. -/
theorem ok_iff :
    (∀ {ε α β : Type} {x : Except ε α} {f : α → Except ε β} {b : β},
      (x >>= f) = .ok b ↔ ∃ a, x = .ok a ∧ f a = .ok b) ∧
    (∀ {p : Unit → Prop}, (∃ a, p a) ↔ p ()) ∧
    (∀ {ε : Type} {c : Prop} [Decidable c] {e : ε} {u : Unit},
      refuse c e = .ok u ↔ ¬ c) ∧
    (∀ {ε α : Type} {a b : α}, (pure a : Except ε α) = .ok b ↔ a = b) ∧
    (∀ {ε ε' α : Type} {e : ε'} {x : Except ε α} {a : α},
      failWith e x = .ok a ↔ x = .ok a) ∧
    (∀ {ε α : Type} {x : Option α} {e : ε} {a : α},
      require x e = .ok a ↔ x = some a) :=
  ⟨bind_eq_ok, exists_unit, refuse_eq_ok, pure_eq_ok _ _, failWith_eq_ok,
    require_eq_ok⟩

-- ==== loops

/-- What one iteration of a fallible loop preserves, a completed loop
preserves. -/
theorem foldlM_invariant {f : σ → α → Except ε σ} (P : σ → Prop)
    (hstep : ∀ s a s', P s → f s a = .ok s' → P s') :
    ∀ (xs : List α) (s s' : σ), P s →
      xs.foldlM f s = .ok s' → P s' := by
  intro xs
  induction xs with
  | nil =>
    intro s s' hs h
    simp only [List.foldlM_nil, pure_eq_ok] at h
    exact h ▸ hs
  | cons a xs ih =>
    intro s s' hs h
    simp only [List.foldlM_cons, bind_eq_ok] at h
    obtain ⟨m, hm, h⟩ := h
    exact ih m s' (hstep s a m hs hm) h

variable {xs : List α}

/-- The rule for an invariant over the elements consumed so far. -/
theorem foldlM_prefix {f : σ → α → Except ε σ} (P : List α → σ → Prop)
    {s₀ : σ} (h₀ : P [] s₀)
    (hstep : ∀ pre a s s', pre ++ [a] <+: xs → P pre s → f s a = .ok s' →
      P (pre ++ [a]) s') {s' : σ} (h : xs.foldlM f s₀ = .ok s') :
    P xs s' := by
  suffices hgen : ∀ (ys pre : List α) (s : σ), pre ++ ys = xs →
      P pre s → ys.foldlM f s = .ok s' → P (pre ++ ys) s' from
    hgen xs [] s₀ rfl h₀ h
  intro ys
  induction ys with
  | nil =>
    intro pre s _ hs h
    simp only [List.foldlM_nil, pure_eq_ok] at h
    rw [List.append_nil]
    exact h ▸ hs
  | cons a ys ih =>
    intro pre s hxs hs h
    simp only [List.foldlM_cons, bind_eq_ok] at h
    obtain ⟨m, hm, h⟩ := h
    have hsplit : pre ++ [a] ++ ys = xs := by
      rw [List.append_assoc, List.singleton_append, hxs]
    have hnext := ih (pre ++ [a]) m hsplit
      (hstep pre a s m ⟨ys, hsplit⟩ hs hm) h
    rwa [List.append_assoc, List.singleton_append] at hnext

/-- A loop over distinct keys whose iterations touch their own entry
only. -/
theorem foldlM_entries {κ : Type} {f : σ → κ → Except ε σ} (get : σ → κ → β)
    (P : κ → β → Prop) {ks : List κ} (hnodup : ks.Nodup) {s₀ s' : σ}
    (hother : ∀ s k s', f s k = .ok s' → ∀ j, j ≠ k → get s' j = get s j)
    (hown : ∀ s k s', f s k = .ok s' → get s k = get s₀ k → P k (get s' k))
    (h : ks.foldlM f s₀ = .ok s') : ∀ k ∈ ks, P k (get s' k) := by
  suffices hloop : (∀ k ∈ ks, P k (get s' k)) ∧
      ∀ k, k ∉ ks → get s' k = get s₀ k from hloop.1
  refine foldlM_prefix (fun done s => (∀ k ∈ done, P k (get s k)) ∧
    ∀ k, k ∉ done → get s k = get s₀ k)
    ⟨fun _ hk => by (cases hk), fun _ _ => rfl⟩ ?_ h
  rintro done k s s' hpre ⟨hdone, hrest⟩ hstep
  have hfresh : k ∉ done := by
    have := hnodup.sublist hpre.sublist
    rw [List.nodup_append] at this
    exact fun hk => this.2.2 k hk k (List.mem_singleton_self k) rfl
  refine ⟨fun j hj => ?_, fun j hj => ?_⟩
  · rcases List.mem_append.1 hj with hj | hj
    · rw [hother s k s' hstep j fun heq => hfresh (heq ▸ hj)]
      exact hdone j hj
    · obtain rfl := List.mem_singleton.1 hj
      exact hown s j s' hstep (hrest j hfresh)
  · rw [List.mem_append, not_or, List.mem_singleton] at hj
    rw [hother s k s' hstep j hj.2, hrest j hj.1]

variable {ys : List β}

/-- A loop that collects one result for each element. -/
theorem mapM_eq_ok (h : xs.mapM f = .ok ys) :
    List.Forall₂ (fun x y => f x = .ok y) xs ys := by
  induction xs generalizing ys with
  | nil =>
    simp only [List.mapM_nil, pure_eq_ok] at h
    exact h ▸ .nil
  | cons x xs ih =>
    simp only [List.mapM_cons, bind_eq_ok, pure_eq_ok] at h
    obtain ⟨y, hy, ys', hys, rfl⟩ := h
    exact .cons hy (ih hys)

theorem mapM_ok (h : List.Forall₂ (fun x y => f x = .ok y) xs ys) :
    xs.mapM f = .ok ys := by
  induction h with
  | nil => rfl
  | cons hxy _ ih => rw [List.mapM_cons, hxy, ok_bind, ih]; rfl

/-- Every result of such a loop belongs to one of the elements. -/
theorem exists_of_forall₂ {R : α → β → Prop} (h : List.Forall₂ R xs ys)
    {y : β} (hy : y ∈ ys) : ∃ x ∈ xs, R x y := by
  induction h with
  | nil => cases hy
  | cons hxy _ ih =>
    rcases List.mem_cons.1 hy with rfl | hy
    · exact ⟨_, List.mem_cons_self, hxy⟩
    · obtain ⟨x, hx, hr⟩ := ih hy
      exact ⟨x, List.mem_cons_of_mem _ hx, hr⟩

/-- A loop depends on what it calls for its own elements only. -/
theorem mapM_congr {g : α → Except ε β} (h : ∀ x ∈ xs, f x = g x) :
    xs.mapM f = xs.mapM g := by
  induction xs with
  | nil => rfl
  | cons x xs ih =>
    rw [List.mapM_cons, List.mapM_cons, h x List.mem_cons_self,
      ih fun y hy => h y (List.mem_cons_of_mem x hy)]

/-- A loop that only checks succeeds when every check does. -/
@[simp] theorem forM_eq_ok {f : α → Except ε PUnit} {u : PUnit} :
    forM xs f = .ok u ↔ ∀ x ∈ xs, f x = .ok () := by
  induction xs with
  | nil => simp
  | cons x xs ih =>
    simp only [List.forM_cons, bind_eq_ok, exists_unit, ih,
      List.forall_mem_cons]

end ZephyrChain.Lib
