/-
The byte arithmetic of the tree's keys is bit arithmetic: masking a
prefix, toggling a bit and setting a bitmap bit do to the single bits
what their names say. The result is the `BitKey` instance through which
the whole library of sparse trees applies to 32-byte keys.

Everything is reduced to `Nat.testBit` of one byte; which bit of which
byte is meant is division and remainder by 8, left to `omega`.
-/
import ZephyrChain.State.Smt

namespace ZephyrChain.State

open Lib Lib.SparseMerkle

-- ==== bytes

variable {i : Nat}

theorem byteAt_lt {key : Bytes32} (hi : i < 32) :
    byteAt key i = key[i] := by
  simp [byteAt, hi]

theorem byteAt_ge {key : Bytes32} (hi : 32 ≤ i) : byteAt key i = 0 := by
  simp [byteAt, hi]

theorem ext_byteAt {x y : Bytes32}
    (h : ∀ i, i < 32 → byteAt x i = byteAt y i) : x = y := by
  apply Vector.ext
  intro i hi
  rw [← byteAt_lt hi, ← byteAt_lt hi, h i hi]

theorem byteAt_zero (i : Nat) : byteAt Bytes32.zero i = 0 := by
  by_cases hi : i < 32
  · rw [byteAt_lt hi]
    simp [Bytes32.zero]
  · exact byteAt_ge (by omega)

/-- Two bytes with the same eight bits are equal. -/
theorem byte_ext {a b : UInt8}
    (h : ∀ s, s < 8 → a.toNat.testBit s = b.toNat.testBit s) : a = b := by
  apply UInt8.toNat_inj.1
  apply Nat.eq_of_testBit_eq
  intro s
  by_cases hs : s < 8
  · exact h s hs
  · have ha : a.toNat < 2 ^ s :=
      Nat.lt_of_lt_of_le a.toNat_lt (Nat.pow_le_pow_right (by omega) (by omega))
    have hb : b.toNat < 2 ^ s :=
      Nat.lt_of_lt_of_le b.toNat_lt (Nat.pow_le_pow_right (by omega) (by omega))
    rw [Nat.testBit_lt_two_pow ha, Nat.testBit_lt_two_pow hb]

/-- The single-bit byte. -/
theorem testBit_one_shiftLeft {r s : Nat} (hr : r < 8) (hs : s < 8) :
    ((1 : UInt8) <<< UInt8.ofNat r).toNat.testBit s = decide (s = r) := by
  have h : ∀ r : Fin 8, ∀ s : Fin 8,
      ((1 : UInt8) <<< UInt8.ofNat r).toNat.testBit s =
        decide (s.val = r.val) := by
    decide
  exact h ⟨r, hr⟩ ⟨s, hs⟩

/-- The mask of a byte's first `r` bits. -/
theorem testBit_mask {r s : Nat} (hr0 : 0 < r) (hr : r < 8) (hs : s < 8) :
    ((0xFF : UInt8) <<< UInt8.ofNat (8 - r)).toNat.testBit s =
      decide (8 - r ≤ s) := by
  have h : ∀ r : Fin 8, ∀ s : Fin 8, 0 < r.val →
      ((0xFF : UInt8) <<< UInt8.ofNat (8 - r)).toNat.testBit s =
        decide (8 - r.val ≤ s.val) := by
    decide
  exact h ⟨r, hr⟩ ⟨s, hs⟩ hr0

/-- Reading one bit of a byte by shifting it down. -/
theorem shiftRight_and_one {b : UInt8} {s : Nat} (hs : s < 8) :
    (b >>> UInt8.ofNat s) &&& 1 = if b.toNat.testBit s then 1 else 0 := by
  apply UInt8.toNat_inj.1
  have hmod : (UInt8.ofNat s).toNat % 8 = s := by
    rw [UInt8.toNat_ofNat']
    omega
  rw [UInt8.toNat_and, UInt8.toNat_shiftRight, hmod]
  change b.toNat >>> s &&& 1 = _
  rw [Nat.and_comm, Nat.testBit]
  have hlt : 1 &&& b.toNat >>> s < 2 := by
    rw [Nat.one_and_eq_mod_two]
    omega
  split
  case isTrue h =>
    have hne : 1 &&& b.toNat >>> s ≠ 0 := by simpa using h
    change _ = 1
    omega
  case isFalse h =>
    have heq : 1 &&& b.toNat >>> s = 0 := by simpa using h
    change _ = 0
    omega

-- ==== keys

/-- Bit `i` of a key as a truth value, counted from the root. -/
def keyBit (key : Bytes32) (i : Nat) : Bool :=
  (byteAt key (i / 8)).toNat.testBit (7 - i % 8)

/-- `bitAt` is the key bit. -/
theorem bitAt_eq (key : Bytes32) (i : Nat) :
    bitAt key i = if keyBit key i then 1 else 0 :=
  shiftRight_and_one (by omega)

theorem bitAt_eq_zero (key : Bytes32) (i : Nat) :
    bitAt key i = 0 ↔ keyBit key i = false := by
  rw [bitAt_eq]
  cases keyBit key i <;> simp

theorem byteAt_ofFn (f : Fin 32 → UInt8) (hi : i < 32) :
    byteAt (Vector.ofFn f) i = f ⟨i, hi⟩ := by
  rw [byteAt_lt hi, Vector.getElem_ofFn]

theorem byteAt_setIfInBounds (key : Bytes32) (j : Nat) (b : UInt8)
    (hi : i < 32) :
    byteAt (key.setIfInBounds j b) i = if j = i then b else byteAt key i := by
  rw [byteAt_lt hi, byteAt_lt hi, Vector.getElem_setIfInBounds]

theorem keyBit_prefixAtDepth (key : Bytes32) (depth i : Nat)
    (hi : i < treeDepth) :
    keyBit (prefixAtDepth key depth) i =
      (decide (i < depth) && keyBit key i) := by
  have hi' : i < 256 := hi
  have hbyte : i / 8 < 32 := by omega
  unfold prefixAtDepth keyBit
  split
  case isTrue h0 =>
    subst h0
    simp [byteAt_zero]
  case isFalse h0 =>
  split
  case isTrue hfull =>
    have : i < depth := Nat.lt_of_lt_of_le hi hfull
    simp [this]
  case isFalse hfull =>
  simp only
  split
  case isTrue hrem =>
    -- whole bytes are kept or cleared
    rw [byteAt_ofFn _ hbyte]
    by_cases hlt : i < depth
    · have hb : i / 8 < depth / 8 := by omega
      simp [hlt, hb, byteAt_lt hbyte]
    · have hb : ¬ i / 8 < depth / 8 := by omega
      simp [hlt, hb]
  case isFalse hrem =>
    rw [byteAt_ofFn _ hbyte]
    simp only
    split
    case isTrue hb =>
      have : i < depth := by omega
      simp [this, byteAt_lt hbyte]
    case isFalse hb =>
    split
    case isTrue heq =>
      -- the byte the prefix ends in
      rw [UInt8.toNat_and, Nat.testBit_and, testBit_mask (by omega)
        (by omega) (by omega), byteAt_lt hbyte, Bool.and_comm]
      congr 1
      rw [decide_eq_decide]
      omega
    case isFalse hne =>
      have : ¬ i < depth := by omega
      simp [this]

theorem keyBit_toggleBit (key : Bytes32) (j i : Nat) (hi : i < treeDepth)
    (hj : j < treeDepth) :
    keyBit (toggleBit key j) i = (keyBit key i ^^ decide (i = j)) := by
  have hi' : i < 256 := hi
  have hj' : j < 256 := hj
  unfold keyBit toggleBit
  rw [byteAt_setIfInBounds _ _ _ (by omega)]
  split
  case isTrue hbyte =>
    rw [UInt8.toNat_xor, Nat.testBit_xor, testBit_one_shiftLeft (by omega)
      (by omega), hbyte]
    congr 1
    rw [decide_eq_decide]
    omega
  case isFalse hbyte =>
    have : i ≠ j := fun h => hbyte (by rw [h])
    simp [this]

theorem keyBit_zero (i : Nat) : keyBit Bytes32.zero i = false := by
  simp [keyBit, byteAt_zero]

theorem keyBit_ext {x y : Bytes32}
    (h : ∀ i, i < treeDepth → keyBit x i = keyBit y i) : x = y := by
  apply ext_byteAt
  intro j hj
  apply byte_ext
  intro s hs
  have hlt : 8 * j + (7 - s) < treeDepth := by
    change _ < 256
    omega
  have hdiv : (8 * j + (7 - s)) / 8 = j := by omega
  have hmod : 7 - (8 * j + (7 - s)) % 8 = s := by omega
  have hb := h (8 * j + (7 - s)) hlt
  rwa [keyBit, keyBit, hdiv, hmod] at hb

instance : BitKey Bytes32 treeDepth where
  bit := keyBit
  mask := prefixAtDepth
  flip := toggleBit
  zero := Bytes32.zero
  bit_mask := keyBit_prefixAtDepth
  bit_flip := fun k j i hi hj => keyBit_toggleBit k j i hi hj
  bit_zero := fun i _ => keyBit_zero i
  ext := fun _ _ => keyBit_ext

-- ==== bitmap

/-- `bitmapBit` reads a bit counted from the least significant. -/
theorem bitmapBit_eq (bitmap : Bytes32) (i : Nat) :
    bitmapBit bitmap i =
      (byteAt bitmap (i / 8)).toNat.testBit (i % 8) := by
  have hs : i % 8 < 8 := by omega
  unfold bitmapBit
  generalize byteAt bitmap (i / 8) = b
  generalize i % 8 = s at hs
  cases hb : b.toNat.testBit s
  case false =>
    have hzero : b &&& (1 <<< UInt8.ofNat s) = 0 := by
      apply byte_ext
      intro r hr
      rw [UInt8.toNat_and, Nat.testBit_and, testBit_one_shiftLeft hs hr]
      by_cases hrs : r = s
      · simp [hrs, hb]
      · simp [hrs]
    simp [hzero]
  case true =>
    have hne : b &&& (1 <<< UInt8.ofNat s) ≠ 0 := by
      intro h0
      have hbit : (b &&& (1 <<< UInt8.ofNat s)).toNat.testBit s = false := by
        simp [h0]
      rw [UInt8.toNat_and, Nat.testBit_and, testBit_one_shiftLeft hs hs,
        hb] at hbit
      simp at hbit
    simpa using hne

theorem bitmapBit_setBitmapBit (bitmap : Bytes32) {j : Nat}
    (hi : i < treeDepth) (hj : j < treeDepth) :
    bitmapBit (setBitmapBit bitmap j) i =
      (bitmapBit bitmap i || decide (i = j)) := by
  have hi' : i < 256 := hi
  have hj' : j < 256 := hj
  rw [bitmapBit_eq, bitmapBit_eq, setBitmapBit,
    byteAt_setIfInBounds _ _ _ (by omega)]
  split
  case isTrue hbyte =>
    rw [UInt8.toNat_or, Nat.testBit_or, testBit_one_shiftLeft (by omega)
      (by omega), hbyte]
    congr 1
    rw [decide_eq_decide]
    omega
  case isFalse hbyte =>
    have : i ≠ j := fun h => hbyte (by rw [h])
    simp [this]

end ZephyrChain.State
