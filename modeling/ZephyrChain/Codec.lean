/-
The canonical wire format (`internal/v2/codec`): fixed-width big-endian
numbers, length-prefixed byte strings, and the domain-separated hash
every identifier and commitment of the protocol is made with.

The source's `Writer` appends to one buffer, so a sequence of writes is
a concatenation of the encodings below. Its `Reader` keeps the data and
an offset; since it only ever moves forward, the model keeps the bytes
behind the offset.

Go strings are byte strings. A string constant of the source is turned
into its bytes by `utf8`, and `trimSpace` is `strings.TrimSpace` on
bytes.
-/
import ZephyrChain.Basic
import ZephyrChain.Lib.Strip

namespace ZephyrChain

open Lib

/-- The bytes of a string constant. -/
def utf8 (s : String) : Bytes := s.toUTF8.data.toList

/-- The UTF-8 encodings of the characters `unicode.IsSpace` accepts. -/
def spaces : List Bytes :=
  [[0x09], [0x0a], [0x0b], [0x0c], [0x0d], [0x20], [0xc2, 0x85],
    [0xc2, 0xa0], [0xe1, 0x9a, 0x80], [0xe2, 0x80, 0x80],
    [0xe2, 0x80, 0x81], [0xe2, 0x80, 0x82], [0xe2, 0x80, 0x83],
    [0xe2, 0x80, 0x84], [0xe2, 0x80, 0x85], [0xe2, 0x80, 0x86],
    [0xe2, 0x80, 0x87], [0xe2, 0x80, 0x88], [0xe2, 0x80, 0x89],
    [0xe2, 0x80, 0x8a], [0xe2, 0x80, 0xa8], [0xe2, 0x80, 0xa9],
    [0xe2, 0x80, 0xaf], [0xe2, 0x81, 0x9f], [0xe3, 0x80, 0x80]]

/-- `strings.TrimSpace`. No encoding above is part of another one, so a
string starts or ends with a space exactly when its bytes do. -/
def trimSpace (s : Bytes) : Bytes := strip spaces s

@[simp] theorem trimSpace_trimSpace (s : Bytes) :
    trimSpace (trimSpace s) = trimSpace s :=
  strip_strip (by decide) s

theorem length_trimSpace_le (s : Bytes) :
    (trimSpace s).length ≤ s.length :=
  length_strip_le s

-- ==== writer

namespace Writer

def u8 (v : UInt8) : Bytes := [v]

def u16 (v : UInt16) : Bytes := beBytes 2 v.toNat

def u32 (v : UInt32) : Bytes := beBytes 4 v.toNat

def u64 (v : UInt64) : Bytes := beBytes 8 v.toNat

def bool (v : Bool) : Bytes := u8 (if v then 1 else 0)

/-- `Fixed` of a 32-byte array. -/
def fixed (v : Bytes32) : Bytes := v.toList

/-- A length prefix, wrapped to 32 bits as `uint32(len(v))` does, and the
bytes themselves. -/
def bytes (v : Bytes) : Bytes := u32 (UInt32.ofNat v.length) ++ v

@[simp] theorem length_u8 (v : UInt8) : (u8 v).length = 1 := rfl

@[simp] theorem length_u16 (v : UInt16) : (u16 v).length = 2 := by
  simp [u16]

@[simp] theorem length_u32 (v : UInt32) : (u32 v).length = 4 := by
  simp [u32]

@[simp] theorem length_u64 (v : UInt64) : (u64 v).length = 8 := by
  simp [u64]

@[simp] theorem length_bool (v : Bool) : (bool v).length = 1 := rfl

@[simp] theorem length_fixed (v : Bytes32) : (fixed v).length = 32 := by
  simp [fixed]

@[simp] theorem length_bytes (v : Bytes) :
    (bytes v).length = 4 + v.length := by
  simp [bytes]

theorem u32_inj {x y : UInt32} (h : u32 x = u32 y) : x = y :=
  UInt32.toNat_inj.1 (beBytes_inj x.toNat_lt y.toNat_lt h)

theorem u64_inj {x y : UInt64} (h : u64 x = u64 y) : x = y :=
  UInt64.toNat_inj.1 (beBytes_inj x.toNat_lt y.toNat_lt h)

theorem u16_inj {x y : UInt16} (h : u16 x = u16 y) : x = y :=
  UInt16.toNat_inj.1 (beBytes_inj x.toNat_lt y.toNat_lt h)

/-- A length-prefixed string at the end of a payload pins its content,
whatever its length: the prefix has four bytes and the rest is content. -/
theorem bytes_inj {v w : Bytes} (h : bytes v = bytes w) : v = w :=
  (List.append_inj h (by simp)).2

/-- In front of other data a length-prefixed string pins its content
only below the width of the prefix. -/
theorem bytes_append_inj {v w s t : Bytes} (hv : v.length < 2 ^ 32)
    (hw : w.length < 2 ^ 32) (h : bytes v ++ s = bytes w ++ t) :
    v = w ∧ s = t := by
  have hlen : v.length = w.length := by
    have h4 : u32 (UInt32.ofNat v.length) = u32 (UInt32.ofNat w.length) := by
      simp only [bytes, List.append_assoc] at h
      exact (List.append_inj h (by simp)).1
    have hn := congrArg UInt32.toNat (u32_inj h4)
    rwa [UInt32.toNat_ofNat', UInt32.toNat_ofNat', Nat.mod_eq_of_lt hv,
      Nat.mod_eq_of_lt hw] at hn
  obtain ⟨hvw, hst⟩ := List.append_inj h (by simp [hlen])
  exact ⟨bytes_inj hvw, hst⟩

end Writer

-- ==== reader

/-- A reader of the canonical format. -/
abbrev Reader := ReadM Error UInt8

namespace Reader

def take (n : Nat) : Reader Bytes := fun data =>
  if n ≤ data.length then .ok (data.take n, data.drop n)
  else .error .unexpectedEOF

def u8 : Reader UInt8 := do
  let b ← take 1
  return b.headD 0

def u16 : Reader UInt16 := do
  let b ← take 2
  return UInt16.ofNat (ofBe b)

def u32 : Reader UInt32 := do
  let b ← take 4
  return UInt32.ofNat (ofBe b)

def u64 : Reader UInt64 := do
  let b ← take 8
  return UInt64.ofNat (ofBe b)

def bool : Reader Bool := do
  let v ← u8
  if v = 0 then return false
  else if v = 1 then return true
  else throw (.invalidBool v)

/-- `Fixed(32)` copied into an array. -/
def fixed : Reader Bytes32 := do
  let b ← take 32
  return Bytes32.copy32 b

def bytes (max : UInt32) : Reader Bytes := do
  let n ← u32
  liftM (refuse (max < n) Error.lengthLimit)
  take n.toNat

def done : Reader Unit := fun data =>
  if data = [] then .ok ((), data) else .error .trailingData

end Reader

/-- Read a whole payload: the fields, then nothing behind them. Every
failure is reported as `e`, the way the source's parsers replace the
reader's errors by their own. -/
def parseWith {α : Type} (e : Error) (p : Reader α) (data : Bytes) :
    Except Error α :=
  match (do let a ← p; Reader.done; return a : Reader α).run data with
  | .ok (a, _) => .ok a
  | .error _ => .error e

theorem parseWith_of_parses {α : Type} {p : Reader α} {bs : Bytes} {a : α}
    (e : Error) (h : Parses p bs a) : parseWith e p bs = .ok a := by
  have hp := h []
  rw [List.append_nil] at hp
  rw [parseWith, StateT.run_bind, hp]
  rfl

theorem parseWith_of_fails {α : Type} {p : Reader α} {bs : Bytes}
    (e : Error) (h : Fails p bs) : parseWith e p bs = .error e := by
  obtain ⟨e', he⟩ := h []
  rw [List.append_nil] at he
  rw [parseWith, StateT.run_bind, he]
  rfl

/-- The error a parser reports for `err`: its own `e` for a failure of the
reader, and the nested parser's for anything else. -/
def readerErrorTo (e err : Error) : Error :=
  match err with
  | .unexpectedEOF | .trailingData | .lengthLimit | .invalidBool _ => e
  | err => err

/-- Read a whole payload whose fields hold records with parsers of their
own: the errors of those are passed on. -/
def parseNested {α : Type} (e : Error) (p : Reader α) (data : Bytes) :
    Except Error α :=
  match (do let a ← p; Reader.done; return a : Reader α).run data with
  | .ok (a, _) => .ok a
  | .error err => .error (readerErrorTo e err)

/-- The two ways of reporting an error accept the same payloads. -/
theorem parseNested_eq_ok {α : Type} {p : Reader α} {e : Error}
    {data : Bytes} {a : α} :
    parseNested e p data = .ok a ↔ parseWith e p data = .ok a := by
  unfold parseNested parseWith
  cases (do let a ← p; Reader.done; return a : Reader α).run data with
  | ok r => rfl
  | error err => simp

-- ==== framed files

/-- The fields of a file that holds one payload behind a magic number and
its length, with a digest at the end. -/
theorem frame_fields {magic payload : Bytes} (digest : Bytes32)
    (hmagic : magic.length = 4) (hlen : payload.length < 2 ^ 32) :
    let raw := magic ++ Writer.u32 (UInt32.ofNat payload.length) ++
      payload ++ Writer.fixed digest
    raw.length = 8 + payload.length + 32 ∧ raw.take 4 = magic ∧
      ofBe ((raw.drop 4).take 4) = payload.length ∧
      (raw.drop 8).take payload.length = payload ∧
      raw.drop (8 + payload.length) = digest.toList := by
  intro raw
  have hraw : raw = magic ++ (Writer.u32 (UInt32.ofNat payload.length) ++
      (payload ++ Writer.fixed digest)) := by
    simp only [raw, List.append_assoc]
  have hfield : ofBe (Writer.u32 (UInt32.ofNat payload.length)) =
      payload.length := by
    rw [Writer.u32, UInt32.toNat_ofNat', Nat.mod_eq_of_lt hlen,
      ofBe_beBytes_of_lt hlen]
  have hdrop4 : raw.drop 4 = Writer.u32 (UInt32.ofNat payload.length) ++
      (payload ++ Writer.fixed digest) := by
    rw [hraw, List.drop_left' hmagic]
  have hdrop8 : raw.drop 8 = payload ++ Writer.fixed digest := by
    rw [show 8 = 4 + 4 from rfl, ← List.drop_drop, hdrop4,
      List.drop_left' (Writer.length_u32 _)]
  refine ⟨?_, ?_, ?_, ?_, ?_⟩
  · simp only [raw, List.length_append, hmagic, Writer.length_u32,
      Writer.length_fixed]
  · rw [hraw, List.take_left' hmagic]
  · rw [hdrop4, List.take_left' (Writer.length_u32 _), hfield]
  · rw [hdrop8, List.take_left]
  · rw [← List.drop_drop, hdrop8, List.drop_left]
    rfl

-- ==== domain hashing

/-- The bytes `DomainHash` feeds into SHA-256: the domain and the payload,
each behind its length. -/
def domainFrame (domain : String) (payload : Bytes) : Bytes :=
  Writer.bytes (utf8 domain) ++ Writer.bytes payload

def domainHash (C : Crypto) (domain : String) (payload : Bytes) : Bytes32 :=
  C.sha256 (domainFrame domain payload)

/-- The framing is unambiguous: the payload may have any length, since it
is the last thing in the frame. -/
theorem domainFrame_inj {d d' : String} {p p' : Bytes}
    (hd : (utf8 d).length < 2 ^ 32) (hd' : (utf8 d').length < 2 ^ 32)
    (h : domainFrame d p = domainFrame d' p') :
    utf8 d = utf8 d' ∧ p = p' := by
  obtain ⟨h1, h2⟩ := Writer.bytes_append_inj hd hd' h
  exact ⟨h1, Writer.bytes_inj h2⟩

end ZephyrChain
