/-
Byte-level wire formats: fixed-width big-endian numbers, and readers
that consume a prefix of a stream.

# Numbers

`beBytes w x` is the `w`-byte big-endian form of `x` (the low `w` bytes,
as a machine store would keep them), `ofBe` reads bytes back. They are
inverse in both directions below `256 ^ w`.

# Readers

A reader is a state action over the bytes still to be read. `Parses p
bs a` says that `p`, started on any stream that begins with `bs`,
returns `a` and leaves the rest untouched. It composes along binds by
concatenation, so the round trip of a whole record is the list of the
round trips of its fields.
-/
import ZephyrChain.Lib.Except
import Mathlib.Tactic

namespace ZephyrChain.Lib

-- ==== big-endian numbers

/-- The low `w` bytes of `x`, most significant first. -/
def beBytes : Nat → Nat → List UInt8
  | 0, _ => []
  | w + 1, x => beBytes w (x / 256) ++ [UInt8.ofNat x]

/-- The number a big-endian byte string denotes. -/
def ofBe (bs : List UInt8) : Nat :=
  bs.foldl (fun acc b => acc * 256 + b.toNat) 0

@[simp] theorem ofBe_nil : ofBe [] = 0 := rfl

@[simp] theorem ofBe_append_singleton (bs : List UInt8) (b : UInt8) :
    ofBe (bs ++ [b]) = ofBe bs * 256 + b.toNat := by
  simp [ofBe]

@[simp] theorem length_beBytes (w x : Nat) : (beBytes w x).length = w := by
  induction w generalizing x with
  | zero => rfl
  | succ w ih => simp [beBytes, ih]

/-- Reading back a stored number gives its low bytes. -/
theorem ofBe_beBytes (w x : Nat) : ofBe (beBytes w x) = x % 256 ^ w := by
  induction w generalizing x with
  | zero => simp [beBytes, Nat.mod_one]
  | succ w ih =>
    have hsplit : x % 256 ^ (w + 1) = x % 256 + 256 * (x / 256 % 256 ^ w) := by
      rw [Nat.pow_succ', Nat.mod_mul]
    rw [beBytes, ofBe_append_singleton, ih, hsplit, UInt8.toNat_ofNat']
    omega

theorem ofBe_beBytes_of_lt {w x : Nat} (h : x < 256 ^ w) :
    ofBe (beBytes w x) = x := by
  rw [ofBe_beBytes, Nat.mod_eq_of_lt h]

theorem ofBe_lt (bs : List UInt8) : ofBe bs < 256 ^ bs.length := by
  induction bs using List.reverseRecOn with
  | nil => simp
  | append_singleton bs b ih =>
    have hb : b.toNat < 256 := b.toNat_lt
    rw [ofBe_append_singleton, List.length_append, List.length_singleton,
      Nat.pow_succ]
    omega

/-- Storing a number that was read gives the bytes it was read from. -/
theorem beBytes_ofBe (bs : List UInt8) :
    beBytes bs.length (ofBe bs) = bs := by
  induction bs using List.reverseRecOn with
  | nil => rfl
  | append_singleton bs b ih =>
    have hb : b.toNat < 256 := b.toNat_lt
    have hdiv : (ofBe bs * 256 + b.toNat) / 256 = ofBe bs := by omega
    rw [List.length_append, List.length_singleton, beBytes,
      ofBe_append_singleton, hdiv, ih]
    congr 2
    apply UInt8.toNat_inj.1
    rw [UInt8.toNat_ofNat']
    omega

/-- Equal-length byte strings that denote the same number are equal. -/
theorem ofBe_inj {bs cs : List UInt8} (hlen : bs.length = cs.length)
    (h : ofBe bs = ofBe cs) : bs = cs := by
  rw [← beBytes_ofBe bs, ← beBytes_ofBe cs, hlen, h]

/-- Big-endian words of one width below the width's bound are equal only
when their numbers are. -/
theorem beBytes_inj {w x y : Nat} (hx : x < 256 ^ w) (hy : y < 256 ^ w)
    (h : beBytes w x = beBytes w y) : x = y := by
  rw [← ofBe_beBytes_of_lt hx, ← ofBe_beBytes_of_lt hy, h]

-- ==== readers

/-- A reader over a stream of tokens: it returns a value and the tokens
it has not consumed, or fails. -/
abbrev ReadM (ε τ : Type) := StateT (List τ) (Except ε)

variable {ε τ α β : Type}

/-- On every stream that starts with `ts`, the reader returns `a` and
stops exactly behind `ts`. -/
def Parses (p : ReadM ε τ α) (ts : List τ) (a : α) : Prop :=
  ∀ post, p.run (ts ++ post) = .ok (a, post)

theorem Parses.pure (a : α) :
    Parses (ε := ε) (τ := τ) (Pure.pure a) [] a := by
  intro post
  rfl

variable {p : ReadM ε τ α} {f : α → ReadM ε τ β} {ts : List τ} {a : α}

theorem Parses.bind {us : List τ} {b : β} (hp : Parses p ts a)
    (hf : Parses (f a) us b) : Parses (p >>= f) (ts ++ us) b := by
  intro post
  rw [StateT.run_bind, List.append_assoc, hp (us ++ post), ok_bind]
  exact hf post

/-- The last field of a record: nothing is appended behind it. -/
theorem Parses.bind_nil {b : β} (hp : Parses p ts a)
    (hf : Parses (f a) [] b) : Parses (p >>= f) ts b := by
  have h := hp.bind hf
  rwa [List.append_nil] at h

variable {c : Prop} {e : ε}

/-- A guard that passes consumes nothing. -/
theorem Parses.refuse [Decidable c] (h : ¬ c) :
    Parses (τ := τ) (liftM (refuse c e) : ReadM ε τ Unit) [] () := by
  intro post
  rw [refuse_of_not e h]
  rfl

/-- On every stream that starts with `ts`, the reader fails. -/
def Fails (p : ReadM ε τ α) (ts : List τ) : Prop :=
  ∀ post, ∃ e, p.run (ts ++ post) = .error e

/-- A reader fails when a later field does. -/
theorem Parses.bind_fails {us : List τ} (hp : Parses p ts a)
    (hf : Fails (f a) us) : Fails (p >>= f) (ts ++ us) := by
  intro post
  obtain ⟨e, he⟩ := hf post
  refine ⟨e, ?_⟩
  rw [StateT.run_bind, List.append_assoc, hp (us ++ post), ok_bind]
  exact he

/-- A reader fails when an earlier field does. -/
theorem Fails.bind (hp : Fails p ts) (f : α → ReadM ε τ β) (us : List τ) :
    Fails (p >>= f) (ts ++ us) := by
  intro post
  obtain ⟨e, he⟩ := hp (us ++ post)
  refine ⟨e, ?_⟩
  rw [StateT.run_bind, List.append_assoc, he]
  rfl

/-- A guard that passes leaves the failure to what follows. -/
theorem Fails.of_not [Decidable c] (h : ¬ c) {f : Unit → ReadM ε τ β}
    (hf : Fails (f ()) ts) :
    Fails ((liftM (Lib.refuse c e) : ReadM ε τ Unit) >>= f) ts :=
  (Parses.refuse h).bind_fails hf

/-- A reader fails at a guard that does not pass. -/
theorem Fails.refuse [Decidable c] (h : c) (f : Unit → ReadM ε τ β)
    (ts : List τ) :
    Fails ((liftM (refuse c e) : ReadM ε τ Unit) >>= f) ts := by
  intro post
  refine ⟨e, ?_⟩
  rw [refuse_of e h]
  rfl

/-- Read `n` values with one reader, in order. -/
def readMany (p : ReadM ε τ α) : Nat → ReadM ε τ (List α)
  | 0 => Pure.pure []
  | n + 1 => do
      let a ← p
      let rest ← readMany p n
      return a :: rest

end ZephyrChain.Lib
