import Bitcoin.Bytes
/-! # Script numbers

Numbers on the script stack are little-endian sign-magnitude byte strings: the high bit of the
last byte is the sign, zero is the empty string, and a magnitude whose top bit is taken gets an
extra sign byte. Decoding reads at most eight bytes into a 64-bit integer and negates with
wrap-around. An element counts as true unless all its bytes are zero, with the last byte allowed
to be `0x80` (negative zero).
-/

namespace Bitcoin.ScriptNum

/-- The little-endian bytes of a magnitude, without trailing zero bytes. -/
def magnitudeBytes (n : Nat) : Bytes :=
  if n = 0 then [] else n.toUInt8 :: magnitudeBytes (n / 256)
termination_by n
decreasing_by omega

/-- Put the sign into the last byte of a magnitude: set its high bit when the number is negative,
or append a byte `0x80` or `0x00` when that bit is already used by the magnitude. -/
def withSign (negative : Bool) : Bytes → Bytes
  | [] => []
  | [last] =>
    if last &&& 0x80 ≠ 0 then [last, if negative then 0x80 else 0x00]
    else if negative then [last ||| 0x80]
    else [last]
  | b :: rest => b :: withSign negative rest

/-- The script encoding of a 64-bit integer; zero is the empty string. -/
def encode (n : Int64) : Bytes :=
  withSign (n < 0) (magnitudeBytes n.toInt.natAbs)

/-- The low 64 bits of the magnitude: bytes `0` to `7`, the last byte of the element without its
sign bit. -/
def magnitude (element : Bytes) : UInt64 :=
  let last := element.length - 1
  ((element.take 8).zipIdx).foldl
    (fun acc (b, i) =>
      let b := if i = last then b &&& 0x7f else b
      acc ||| (b.toUInt64 <<< (8 * i).toUInt64))
    0

/-- Decode a script number: the magnitude's low 64 bits, negated with wrap-around when the sign
bit of the last byte is set. -/
def decode (element : Bytes) : Int64 :=
  match element.getLast? with
  | none => 0
  | some last =>
    let m := (magnitude element).toInt64
    if last &&& 0x80 ≠ 0 then -m else m

/-- Whether an element counts as true: some byte is nonzero, other than a final `0x80`. -/
def isTrue : Bytes → Bool
  | [] => false
  | [b] => b ≠ 0 && b ≠ 0x80
  | b :: rest => b ≠ 0 || isTrue rest

end Bitcoin.ScriptNum
