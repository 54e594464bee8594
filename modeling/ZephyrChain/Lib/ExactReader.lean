/-
Readers whose runs can be read backwards. `Parses` says what a reader
does on an encoding; `Exact` says in addition that nothing else makes it
succeed: the reader returns `a` exactly on the streams that start with
the encoding of `a`. A format with exact readers has one encoding for
each value.

A record's reader is exact because its fields are. `Completes` says what
is left of it behind the fields already read; one rule for each kind of
field takes it a field further, so a reader is proved exact in the order
it is written.

`Separates` is the counterpart for encoders: the first encoding in a
stream tells where it ends and what it encodes.
-/
import ZephyrChain.Lib.Wire

namespace ZephyrChain.Lib

variable {ε τ α β : Type}

-- ==== successful runs

variable {p : ReadM ε τ α} {f : α → ReadM ε τ β} {ts : List τ}

theorem run_bind_eq_ok {x : β × List τ} :
    (p >>= f).run ts = .ok x ↔
      ∃ a mid, p.run ts = .ok (a, mid) ∧ (f a).run mid = .ok x := by
  rw [StateT.run_bind, bind_eq_ok]
  constructor
  · rintro ⟨⟨a, mid⟩, hp, hf⟩
    exact ⟨a, mid, hp, hf⟩
  · rintro ⟨a, mid, hp, hf⟩
    exact ⟨(a, mid), hp, hf⟩

theorem run_pure_eq_ok {a b : α} {rest : List τ} :
    (Pure.pure a : ReadM ε τ α).run ts = .ok (b, rest) ↔
      b = a ∧ rest = ts := by
  rw [StateT.run_pure, pure_eq_ok, Prod.mk.injEq]
  exact ⟨fun h => ⟨h.1.symm, h.2.symm⟩, fun h => ⟨h.1.symm, h.2.symm⟩⟩

theorem run_lift_eq_ok {x : Except ε α} {a : α} {rest : List τ} :
    (liftM x : ReadM ε τ α).run ts = .ok (a, rest) ↔
      x = .ok a ∧ rest = ts := by
  cases x with
  | error e =>
    constructor
    · intro h
      cases h
    · rintro ⟨h, -⟩
      cases h
  | ok b =>
    have hrun : (liftM (Except.ok b : Except ε α) : ReadM ε τ α).run ts =
        .ok (b, ts) := rfl
    rw [hrun, Except.ok.injEq, Except.ok.injEq, Prod.mk.injEq]
    exact ⟨fun h => ⟨h.1, h.2.symm⟩, fun h => ⟨h.1, h.2.symm⟩⟩

-- ==== exact readers

/-- The reader returns `a` exactly on the streams that start with the
encoding of `a`, for the values the reader accepts. -/
def Exact (p : ReadM ε τ α) (enc : α → List τ) (ok : α → Prop) : Prop :=
  ∀ ts a rest, p.run ts = .ok (a, rest) ↔ ts = enc a ++ rest ∧ ok a

variable {enc : α → List τ} {ok : α → Prop}

/-- An exact reader returns what was written for it. -/
theorem Exact.parses (h : Exact p enc ok) {a : α} (ha : ok a) :
    Parses p (enc a) a :=
  fun rest => (h _ a rest).2 ⟨rfl, ha⟩

/-- A row of so many values. -/
theorem Exact.readMany (h : Exact p enc ok) (n : Nat) :
    Exact (Lib.readMany p n) (fun xs => xs.flatMap enc)
      fun xs => xs.length = n ∧ ∀ x ∈ xs, ok x := by
  induction n with
  | zero =>
    intro ts xs rest
    rw [Lib.readMany, run_pure_eq_ok]
    constructor
    · rintro ⟨rfl, rfl⟩
      exact ⟨rfl, rfl, List.forall_mem_nil _⟩
    · rintro ⟨rfl, hlen, -⟩
      rw [List.length_eq_zero_iff.1 hlen]
      exact ⟨rfl, rfl⟩
  | succ n ih =>
    intro ts xs rest
    simp only [Lib.readMany, run_bind_eq_ok, run_pure_eq_ok, h _ _ _,
      ih _ _ _]
    constructor
    · rintro ⟨a, _, ⟨rfl, ha⟩, ys, _, ⟨rfl, hlen, hys⟩, rfl, rfl⟩
      refine ⟨?_, ?_, List.forall_mem_cons.2 ⟨ha, hys⟩⟩
      · rw [List.flatMap_cons, List.append_assoc]
      · rw [List.length_cons, hlen]
    · rintro ⟨rfl, hlen, hxs⟩
      obtain ⟨a, ys, rfl⟩ := List.exists_cons_of_length_eq_add_one hlen
      obtain ⟨ha, hys⟩ := List.forall_mem_cons.1 hxs
      refine ⟨a, _, ⟨?_, ha⟩, ys, rest, ⟨rfl, ?_, hys⟩, rfl, rfl⟩
      · rw [List.flatMap_cons, List.append_assoc]
      · exact Nat.succ.inj hlen

-- ==== records

/-- A number read as the case it stands for, and back. -/
theorem code_eq_iff {code : α → β} {ofCode : β → α}
    (hof : ∀ a, ofCode (code a) = a) (hcode : ∀ b, code (ofCode b) = b)
    {a : α} {b : β} : code a = b ↔ a = ofCode b := by
  constructor
  · rintro rfl
    exact (hof a).symm
  · rintro rfl
    exact hcode b

/-- What is left of the reader of a record behind the fields it has read:
it returns the records that have those fields and whose other fields are
next in the stream. -/
def Completes (p : ReadM ε τ β) (known : β → Prop) (enc : β → List τ)
    (ok : β → Prop) : Prop :=
  ∀ ts b rest, p.run ts = .ok (b, rest) ↔
    known b ∧ ts = enc b ++ rest ∧ ok b

variable {known : β → Prop} {encs : β → List τ} {oks : β → Prop}

/-- A reader is exact when it completes a record of which nothing is
known. -/
theorem Exact.of_fields {p : ReadM ε τ β} {enc : β → List τ}
    {ok : β → Prop} (h : Completes p (fun _ => True) encs oks)
    (henc : ∀ b, encs b = enc b) (hok : ∀ b, oks b ↔ ok b) :
    Exact p enc ok := by
  intro ts b rest
  rw [h, henc, hok, true_and]

namespace Completes

theorem field (get : β → α) (hp : Exact p enc ok)
    (hf : ∀ a, Completes (f a) (fun b => known b ∧ get b = a) encs oks) :
    Completes (p >>= f) known (fun b => enc (get b) ++ encs b)
      fun b => ok (get b) ∧ oks b := by
  intro ts b rest
  simp only [run_bind_eq_ok, hp _ _ _, hf _ _ _ _]
  constructor
  · rintro ⟨_, _, ⟨rfl, ha⟩, ⟨hknown, rfl⟩, rfl, hb⟩
    exact ⟨hknown, (List.append_assoc ..).symm, ha, hb⟩
  · rintro ⟨hknown, rfl, ha, hb⟩
    exact ⟨get b, _, ⟨List.append_assoc .., ha⟩, ⟨hknown, rfl⟩, rfl, hb⟩

/-- A check on the fields read so far. -/
theorem refuse {c : Prop} [Decidable c] {e : ε} {f : Unit → ReadM ε τ β}
    (fits : β → Prop) (hc : ∀ b, known b → (¬ c ↔ fits b))
    (hf : Completes (f ()) known encs oks) :
    Completes ((liftM (Lib.refuse c e) : ReadM ε τ Unit) >>= f) known encs
      fun b => fits b ∧ oks b := by
  intro ts b rest
  simp only [run_bind_eq_ok, run_lift_eq_ok, refuse_eq_ok, hf _ _ _]
  constructor
  · rintro ⟨_, _, ⟨hfit, rfl⟩, hknown, hts, hb⟩
    exact ⟨hknown, hts, (hc b hknown).1 hfit, hb⟩
  · rintro ⟨hknown, hts, hfit, hb⟩
    exact ⟨(), _, ⟨(hc b hknown).2 hfit, rfl⟩, hknown, hts, hb⟩

/-- A field that every record has the same value of. -/
theorem literal [DecidableEq α] (v : α) {e : ε} {f : Unit → ReadM ε τ β}
    (hp : Exact p enc ok) (hv : ok v)
    (hf : Completes (f ()) known encs oks) :
    Completes (p >>= fun a => (liftM (Lib.refuse (a ≠ v) e) :
        ReadM ε τ Unit) >>= f) known (fun b => enc v ++ encs b) oks := by
  intro ts b rest
  simp only [run_bind_eq_ok, run_lift_eq_ok, refuse_eq_ok, not_not,
    hp _ _ _, hf _ _ _]
  constructor
  · rintro ⟨_, _, ⟨rfl, -⟩, _, _, ⟨rfl, rfl⟩, hknown, rfl, hb⟩
    exact ⟨hknown, (List.append_assoc ..).symm, hb⟩
  · rintro ⟨hknown, rfl, hb⟩
    exact ⟨v, _, ⟨List.append_assoc .., hv⟩, (), _, ⟨rfl, rfl⟩, hknown, rfl,
      hb⟩

/-- A field that is parsed out of a block read before. -/
theorem nested {γ : Type} {q : ReadM ε τ γ} {block : γ → List τ}
    {fits : γ → Prop} {parse : γ → Except ε α} {inner : α → γ}
    (get : β → α) (hq : Exact q block fits)
    (hparse : ∀ raw a, parse raw = .ok a ↔ raw = inner a ∧ ok a)
    (hfits : ∀ a, ok a → fits (inner a))
    (hf : ∀ a, Completes (f a) (fun b => known b ∧ get b = a) encs oks) :
    Completes (q >>= fun raw => liftM (parse raw) >>= f) known
      (fun b => block (inner (get b)) ++ encs b)
      fun b => ok (get b) ∧ oks b := by
  intro ts b rest
  simp only [run_bind_eq_ok, run_lift_eq_ok, hq _ _ _, hparse, hf _ _ _ _]
  constructor
  · rintro ⟨_, _, ⟨rfl, -⟩, _, _, ⟨⟨rfl, ha⟩, rfl⟩, ⟨hknown, rfl⟩, rfl, hb⟩
    exact ⟨hknown, (List.append_assoc ..).symm, ha, hb⟩
  · rintro ⟨hknown, rfl, ha, hb⟩
    exact ⟨_, _, ⟨List.append_assoc .., hfits _ ha⟩, get b, _,
      ⟨⟨rfl, ha⟩, rfl⟩, ⟨hknown, rfl⟩, rfl, hb⟩

/-- A row of values behind its length. The reader bounds the length as it
was read, before the first value; a length that passes is the length of
the row. -/
theorem row {γ : Type} {count : ReadM ε τ γ} {encN : γ → List τ}
    {size : γ → Nat} {ofSize : Nat → γ} {c : γ → Prop} [DecidablePred c]
    {e : ε} {f : List α → ReadM ε τ β} (get : β → List α)
    (fits : β → Nat → Prop) (hcount : Exact count encN fun _ => True)
    (hof : ∀ n, ofSize (size n) = n)
    (hsize : ∀ b k, fits b k → size (ofSize k) = k)
    (hc : ∀ b n, known b → (¬ c n ↔ fits b (size n))) (hp : Exact p enc ok)
    (hf : ∀ xs, Completes (f xs) (fun b => known b ∧ get b = xs) encs
      oks) :
    Completes (count >>= fun n => (liftM (Lib.refuse (c n) e) :
        ReadM ε τ Unit) >>= fun _ => readMany p (size n) >>= f) known
      (fun b => encN (ofSize (get b).length) ++
        ((get b).flatMap enc ++ encs b))
      fun b => (fits b (get b).length ∧ ∀ x ∈ get b, ok x) ∧ oks b := by
  intro ts b rest
  simp only [run_bind_eq_ok, run_lift_eq_ok, refuse_eq_ok, hcount _ _ _,
    hp.readMany _ _ _ _, hf _ _ _ _]
  constructor
  · rintro ⟨n, _, ⟨rfl, -⟩, _, _, ⟨hfit, rfl⟩, xs, _, ⟨rfl, hlen, hxs⟩,
      ⟨hknown, rfl⟩, rfl, hb⟩
    refine ⟨hknown, ?_, ⟨?_, hxs⟩, hb⟩
    · rw [hlen, hof, List.append_assoc, List.append_assoc]
    · rw [hlen]
      exact (hc b n hknown).1 hfit
  · rintro ⟨hknown, rfl, ⟨hfit, hxs⟩, hb⟩
    refine ⟨ofSize (get b).length, _, ⟨List.append_assoc .., trivial⟩, (), _,
      ⟨?_, rfl⟩, get b, _, ⟨List.append_assoc .., ?_, hxs⟩, ⟨hknown, rfl⟩,
      rfl, hb⟩
    · rwa [hc b _ hknown, hsize _ _ hfit]
    · rw [hsize _ _ hfit]

/-- The record is put together; what its fields do not say of it is
part of what the reader accepts. -/
theorem pure_when {v : β} (ok : β → Prop)
    (h : ∀ b, known b ∧ ok b ↔ b = v) :
    Completes (Pure.pure v : ReadM ε τ β) known (fun _ => []) ok := by
  intro ts b rest
  rw [run_pure_eq_ok, ← h, List.nil_append, eq_comm (a := rest), and_assoc,
    and_comm (a := ok b)]

theorem pure {v : β} (h : ∀ b, known b ↔ b = v) :
    Completes (Pure.pure v : ReadM ε τ β) known (fun _ => [])
      fun _ => True :=
  pure_when _ fun b => by rw [and_true, h]

end Completes

-- ==== encoders

/-- The first encoding in a stream can be told from what follows. -/
def Separates (enc : α → List τ) (ok : α → Prop) : Prop :=
  ∀ a b s t, ok a → ok b → enc a ++ s = enc b ++ t → a = b ∧ s = t

theorem Separates.flatMap (h : Separates enc ok) {xs ys : List α}
    {s t : List τ} (hxs : ∀ x ∈ xs, ok x) (hys : ∀ y ∈ ys, ok y)
    (hlen : xs.length = ys.length)
    (heq : xs.flatMap enc ++ s = ys.flatMap enc ++ t) :
    xs = ys ∧ s = t := by
  induction xs generalizing ys with
  | nil =>
    rw [List.length_eq_zero_iff.1 hlen.symm] at heq ⊢
    exact ⟨rfl, heq⟩
  | cons x xs ih =>
    obtain ⟨y, ys, rfl⟩ :=
      List.exists_cons_of_length_eq_add_one hlen.symm
    obtain ⟨hx, hxs'⟩ := List.forall_mem_cons.1 hxs
    obtain ⟨hy, hys'⟩ := List.forall_mem_cons.1 hys
    rw [List.flatMap_cons, List.flatMap_cons, List.append_assoc,
      List.append_assoc] at heq
    obtain ⟨rfl, hrest⟩ := h x y _ _ hx hy heq
    have hshort : xs.length = ys.length := Nat.succ.inj hlen
    obtain ⟨hsame, hafter⟩ := ih hxs' hys' hshort hrest
    exact ⟨by rw [hsame], hafter⟩

-- ==== normal forms

/-- A format whose reader takes a record as it is laid out, and whose
writer lays out the record's normal form. -/
structure Normalizes (parse : List τ → Except ε α)
    (marshal : α → Except ε (List τ)) (layout : α → List τ)
    (norm : α → α) (ok : α → Prop) : Prop where
  parse_iff : ∀ b v, parse b = .ok v ↔ b = layout v ∧ ok v
  marshal_eq : ∀ v, ok v → marshal v = .ok (layout (norm v))
  norm_ok : ∀ v, ok v → ok (norm v)

namespace Normalizes

variable {parse : List τ → Except ε α} {marshal : α → Except ε (List τ)}
  {layout : α → List τ} {norm : α → α} {ok : α → Prop}

/-- A record has one accepted payload. -/
theorem payload_unique (h : Normalizes parse marshal layout norm ok)
    {b b' : List τ} {v : α} (hb : parse b = .ok v)
    (hb' : parse b' = .ok v) : b' = b := by
  rw [((h.parse_iff b v).1 hb).1, ((h.parse_iff b' v).1 hb').1]

/-- That payload is the written one exactly for a record in normal
form. -/
theorem marshal_iff (h : Normalizes parse marshal layout norm ok)
    {b : List τ} {v : α} (hb : parse b = .ok v) :
    marshal v = .ok b ↔ norm v = v := by
  obtain ⟨rfl, hv⟩ := (h.parse_iff b v).1 hb
  rw [h.marshal_eq v hv, Except.ok.injEq]
  constructor
  · intro heq
    have hnorm : parse (layout (norm v)) = .ok (norm v) :=
      (h.parse_iff _ _).2 ⟨rfl, h.norm_ok v hv⟩
    rw [heq, hb, Except.ok.injEq] at hnorm
    exact hnorm.symm
  · intro heq
    rw [heq]

end Normalizes

end ZephyrChain.Lib
