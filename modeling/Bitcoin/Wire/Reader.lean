import Bitcoin.Bytes
import Bitcoin.Error
/-! # Reading the wire format

A `Reader` is a position in a byte string: how many bytes are consumed and the bytes that remain.
Reads run in `Decoder`, a state monad over the reader whose failures keep the reader as it stood,
so a failed read consumes nothing of its own. Integers are little-endian, a VarInt is a byte below
`0xfd` or one of `fd`, `fe`, `ff` followed by two, four or eight bytes, and hashes travel
byte-reversed.
-/

namespace Bitcoin

/-- A position in a byte string. -/
structure Reader where
  /-- How many bytes have been consumed. -/
  position : Nat
  /-- The bytes not yet consumed. -/
  rest : Bytes
  deriving Repr, DecidableEq

namespace Reader

def ofBytes (data : Bytes) : Reader := ⟨0, data⟩

def remaining (r : Reader) : Nat := r.rest.length

def finished (r : Reader) : Bool := r.rest.isEmpty

end Reader

/-- A computation that reads from a `Reader` and may fail; a failure keeps the reader state it
reached. -/
abbrev Decoder (α : Type) := EStateM Error Reader α

namespace Decoder

/-- Run a decoder from the start of `data`, with the reader it leaves. -/
def runOn (d : Decoder α) (data : Bytes) : EStateM.Result Error Reader α :=
  d.run (Reader.ofBytes data)

/-- Run a decoder over all of `data` and return its value or its error. -/
def parse (d : Decoder α) (data : Bytes) : Outcome α :=
  match d.runOn data with
  | .ok a _ => .ok a
  | .error e _ => .error e

def reader : Decoder Reader := get

/-- Read exactly `n` bytes, or fail naming the offset and how many are available. -/
def fixed (n : Nat) : Decoder (FixedBytes n) := do
  let r ← get
  if h : n ≤ r.remaining then
    set (Reader.mk (r.position + n) (r.rest.drop n))
    return ⟨r.rest.take n, by rw [List.length_take]; exact Nat.min_eq_left h⟩
  else
    throw (.unexpectedEnd s!"wanted {n} bytes at offset {r.position}, {r.remaining} available")

def slice (n : Nat) : Decoder Bytes := do
  return (← fixed n).toList

def u8 : Decoder UInt8 := do
  let bs ← slice 1
  return (Bytes.toNatLE bs).toUInt8

def u16 : Decoder UInt16 := do
  let bs ← slice 2
  return (Bytes.toNatLE bs).toUInt16

def u32 : Decoder UInt32 := do
  let bs ← slice 4
  return (Bytes.toNatLE bs).toUInt32

def u64 : Decoder UInt64 := do
  let bs ← slice 8
  return (Bytes.toNatLE bs).toUInt64

/-- Read a 32-byte hash from the wire and return it in display order. -/
def hashReversed : Decoder (FixedBytes 32) := do
  return (← fixed 32).reverse

/-- Read a VarInt. The marker byte stays consumed when the bytes after it are missing. -/
def varint : Decoder UInt64 := do
  let b ← u8
  if b = 0xfd then return (← u16).toUInt64
  else if b = 0xfe then return (← u32).toUInt64
  else if b = 0xff then u64
  else return b.toUInt64

/-- Read a VarInt length and check it against the bytes that remain. -/
def length : Decoder Nat := do
  let len ← varint
  let r ← get
  if len.toNat > r.remaining then
    throw (.unexpectedEnd s!"declared length {len} exceeds {r.remaining} remaining bytes")
  return len.toNat

def varBytes : Decoder Bytes := do
  let n ← length
  slice n

def times (d : Decoder α) : Nat → Decoder (List α)
  | 0 => return []
  | n + 1 => do
    let a ← d
    let as ← times d n
    return a :: as

end Decoder

/-- The VarInt encoding of a number: one byte up to `0xfc`, else a marker and two, four or eight
little-endian bytes. -/
def encodeVarint (n : UInt64) : Bytes :=
  if n ≤ 0xfc then [n.toUInt8]
  else if n ≤ 0xffff then 0xfd :: leBytes 2 n.toNat
  else if n ≤ 0xffffffff then 0xfe :: leBytes 4 n.toNat
  else 0xff :: leBytes 8 n.toNat

/-- A byte string behind its VarInt length, as `Decoder.varBytes` reads it back. -/
def lengthPrefixed (bs : Bytes) : Bytes :=
  encodeVarint bs.length.toUInt64 ++ bs

end Bitcoin
