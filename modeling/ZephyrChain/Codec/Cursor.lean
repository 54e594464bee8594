/-
The reader of the canonical format with its position
(`internal/v2/codec/codec.go`), and sequences of typed writes and reads.

`Reader` keeps the bytes behind the offset and forgets them when a read
fails. `Cursor` keeps the data and the offset as the source does: a read
that fails halfway leaves the offset where it had come to. The end of a
field, `r.off+n`, is an `int` of 64 bits and wraps; a slice expression
whose end lies before its start is a run-time panic.
-/
import ZephyrChain.Codec

namespace ZephyrChain

open Lib

/-- What a read can end with instead of a value. -/
inductive Fault where
  | error (e : Error)
  /-- A slice bound out of range. -/
  | panic
  deriving DecidableEq

structure Cursor where
  data : Bytes
  off : Nat

/-- A call on a cursor: the outcome, and the cursor also when it fails. -/
abbrev CursorM := ExceptT Fault (StateM Cursor)

namespace Cursor

/-- `NewReader`. -/
def new (data : Bytes) : Cursor := ⟨data, 0⟩

/-- The bytes behind the offset. -/
def rest (c : Cursor) : Bytes := c.data.drop c.off

def take (n : Int64) : CursorM Bytes := fun c =>
  let stop := ((c.off : Int) + n.toInt).bmod (2 ^ 64)
  if n.toInt < 0 ∨ (c.data.length : Int) < stop then
    (.error (.error .unexpectedEOF), c)
  else if stop < c.off then (.error .panic, c)
  else (.ok (c.rest.take (stop.toNat - c.off)), ⟨c.data, stop.toNat⟩)

def u8 : CursorM UInt8 := do
  let b ← take 1
  return b.headD 0

def u16 : CursorM UInt16 := do
  let b ← take 2
  return UInt16.ofNat (ofBe b)

def u32 : CursorM UInt32 := do
  let b ← take 4
  return UInt32.ofNat (ofBe b)

def u64 : CursorM UInt64 := do
  let b ← take 8
  return UInt64.ofNat (ofBe b)

def bool : CursorM Bool := do
  let v ← u8
  if v = 0 then return false
  else if v = 1 then return true
  else throw (.error (.invalidBool v))

def bytes (max : UInt32) : CursorM Bytes := do
  let n ← u32
  if max < n then throw (.error .lengthLimit)
  else take (Int64.ofNat n.toNat)

def done (c : Cursor) : Except Error Unit :=
  refuse (c.off ≠ c.data.length) .trailingData

end Cursor

-- ==== sequences

/-- A typed value, as it is written or as it was read. -/
inductive Item where
  | u8 (v : UInt8)
  | u16 (v : UInt16)
  | u32 (v : UInt32)
  | u64 (v : UInt64)
  | bool (v : Bool)
  | fixed (v : Bytes)
  | bytes (v : Bytes)
  | string (v : Bytes)
  deriving DecidableEq

/-- What one call on a writer appends. -/
def Item.write : Item → Bytes
  | .u8 v => Writer.u8 v
  | .u16 v => Writer.u16 v
  | .u32 v => Writer.u32 v
  | .u64 v => Writer.u64 v
  | .bool v => Writer.bool v
  | .fixed v => v
  | .bytes v => Writer.bytes v
  | .string v => Writer.bytes v

/-- The buffer after a sequence of writes. -/
def writeAll (items : List Item) : Bytes := items.flatMap Item.write

/-- A typed read. -/
inductive Read where
  | u8
  | u16
  | u32
  | u64
  | bool
  | fixed (n : Int64)
  | bytes (max : UInt32)
  | string (max : UInt32)

def Read.run : Read → CursorM Item
  | .u8 => .u8 <$> Cursor.u8
  | .u16 => .u16 <$> Cursor.u16
  | .u32 => .u32 <$> Cursor.u32
  | .u64 => .u64 <$> Cursor.u64
  | .bool => .bool <$> Cursor.bool
  | .fixed n => .fixed <$> Cursor.take n
  | .bytes max => .bytes <$> Cursor.bytes max
  | .string max => .string <$> Cursor.bytes max

/-- Reads up to the first that fails. -/
def readAll : List Read → CursorM (List Item)
  | [] => return []
  | r :: rs => do
      let item ← r.run
      let items ← readAll rs
      return item :: items

/-- The cursor after reads of which any may have failed. -/
def Cursor.after (c : Cursor) (reads : List Read) : Cursor :=
  reads.foldl (fun c r => (r.run c).2) c

/-- The read that gives a value back: of its type, for a fixed field of
its length, and with a limit it is within. -/
def Item.MatchedBy : Item → Read → Prop
  | .u8 _, .u8 => True
  | .u16 _, .u16 => True
  | .u32 _, .u32 => True
  | .u64 _, .u64 => True
  | .bool _, .bool => True
  | .fixed v, .fixed n => n.toInt = v.length
  | .bytes v, .bytes max => v.length ≤ max.toNat
  | .string v, .string max => v.length ≤ max.toNat
  | _, _ => False

/-- Values of one type; fixed fields have a length as part of it. -/
def Item.SameShape : Item → Item → Prop
  | .u8 _, .u8 _ => True
  | .u16 _, .u16 _ => True
  | .u32 _, .u32 _ => True
  | .u64 _, .u64 _ => True
  | .bool _, .bool _ => True
  | .fixed v, .fixed w => v.length = w.length
  | .bytes _, .bytes _ => True
  | .string _, .string _ => True
  | _, _ => False

/-- A string whose length fits into its prefix. -/
def Item.Short : Item → Prop
  | .bytes v => v.length < 2 ^ 32
  | .string v => v.length < 2 ^ 32
  | _ => True

end ZephyrChain
