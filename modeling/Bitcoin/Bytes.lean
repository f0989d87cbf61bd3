/-! # Byte strings, hexadecimal text and integers as bytes

Byte strings are lists of octets. This module fixes the two hexadecimal spellings the library uses
(byte strings as two lowercase digits per byte, and unbounded integers without leading zeros) and
the conversions between natural numbers and their big- and little-endian byte forms.
-/

namespace Bitcoin

/-- A byte string: the octets of a message, a script, a key or a serialized structure. -/
abbrev Bytes := List UInt8

def hexDigit (n : Nat) : Char :=
  if n < 10 then Char.ofNat (48 + n) else Char.ofNat (87 + n)

def hexValue? (c : Char) : Option Nat :=
  if '0' ≤ c ∧ c ≤ '9' then some (c.toNat - 48)
  else if 'a' ≤ c ∧ c ≤ 'f' then some (c.toNat - 87)
  else if 'A' ≤ c ∧ c ≤ 'F' then some (c.toNat - 55)
  else none

def byteHex (b : UInt8) : String :=
  String.ofList [hexDigit (b.toNat / 16), hexDigit (b.toNat % 16)]

/-- The lowercase hexadecimal digits of a number, most significant first, without leading
zeros; zero is written `0`. -/
def natHex (n : Nat) : String :=
  String.ofList (Nat.toDigits 16 n)

def natHexPadded (width n : Nat) : String :=
  let digits := Nat.toDigits 16 n
  String.ofList (List.replicate (width - digits.length) '0' ++ digits)

def natOfHexDigits : List Char → Option Nat → Option Nat
  | [], acc => acc
  | c :: cs, acc =>
    match acc, hexValue? c with
    | some a, some d => natOfHexDigits cs (some (16 * a + d))
    | _, _ => none

/-- Read a number from hexadecimal text; leading zeros are allowed and the empty text is not a
number. -/
def natOfHex? (s : String) : Option Nat :=
  if s.isEmpty then none else natOfHexDigits s.toList (some 0)

/-- A byte string of exactly `n` bytes: a hash, a compact target, a nonce. -/
structure FixedBytes (n : Nat) where
  /-- The bytes. -/
  toList : Bytes
  /-- There are exactly `n` of them. -/
  length_toList : toList.length = n
  deriving DecidableEq

namespace FixedBytes

def reverse (h : FixedBytes n) : FixedBytes n :=
  ⟨h.toList.reverse, by rw [List.length_reverse, h.length_toList]⟩

def ofList? (bs : Bytes) : Option (FixedBytes n) :=
  if h : bs.length = n then some ⟨bs, h⟩ else none

def zero (n : Nat) : FixedBytes n := ⟨List.replicate n 0, List.length_replicate⟩

end FixedBytes

namespace Bytes

def toHex (bs : Bytes) : String :=
  String.join (bs.map byteHex)

def ofHexChars : List Char → Option Bytes
  | [] => some []
  | [_] => none
  | hi :: lo :: rest =>
    match hexValue? hi, hexValue? lo, ofHexChars rest with
    | some h, some l, some bs => some ((16 * h + l).toUInt8 :: bs)
    | _, _, _ => none

/-- Read a byte string from hexadecimal text: an even number of digits, in either case. -/
def ofHex? (s : String) : Option Bytes :=
  ofHexChars s.toList

def toNatBE (bs : Bytes) : Nat :=
  bs.foldl (fun acc b => 256 * acc + b.toNat) 0

def toNatLE (bs : Bytes) : Nat :=
  bs.foldr (fun b acc => b.toNat + 256 * acc) 0

/-- Split a byte string into blocks of `size` bytes; the last block may be shorter. -/
def blocks (size : Nat) (bs : Bytes) : List Bytes :=
  if size = 0 then [bs]
  else match bs with
    | [] => []
    | b :: rest => ((b :: rest).take size) :: blocks size ((b :: rest).drop size)
termination_by bs.length
decreasing_by simp only [List.length_drop, List.length_cons]; omega

end Bytes

def leBytes : Nat → Nat → Bytes
  | 0, _ => []
  | width + 1, n => n.toUInt8 :: leBytes width (n / 256)

def beBytes (width n : Nat) : Bytes :=
  (leBytes width n).reverse

/-- The bytes of a number without leading zero bytes, most significant first; zero has none. -/
def minimalBytes (n : Nat) : Bytes :=
  if n = 0 then [] else minimalBytes (n / 256) ++ [n.toUInt8]
termination_by n
decreasing_by omega

end Bitcoin
