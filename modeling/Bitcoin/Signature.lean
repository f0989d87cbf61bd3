import Bitcoin.Wire.Reader
/-! # ECDSA signatures in DER form

A signature is the pair `(r, s)`. On the wire it is a DER sequence of two integers,
`30 ‖ len ‖ 02 ‖ rlen ‖ r ‖ 02 ‖ slen ‖ s`, each integer big-endian with a zero byte in front when
its high bit is set. Reading accepts integers that are not minimal, but the sequence length must
match the bytes that follow it and nothing may follow `s`. Lengths are written as single bytes.
-/

namespace Bitcoin

/-- An ECDSA signature. -/
structure Signature where
  /-- The x coordinate of the nonce point, modulo `N`. -/
  r : Nat
  /-- The proof scalar. -/
  s : Nat
  deriving Repr, DecidableEq

namespace Signature

/-- The DER integer body of a number: its big-endian bytes (zero is one zero byte), with a zero
byte in front when the first byte has its high bit set. -/
def derInteger (v : Nat) : Bytes :=
  let bs := if v = 0 then [0] else minimalBytes v
  if bs.headD 0 ≥ 0x80 then 0 :: bs else bs

/-- The DER encoding; lengths are taken modulo 256. -/
def der (sig : Signature) : Bytes :=
  let r := derInteger sig.r
  let s := derInteger sig.s
  [0x30, (r.length + s.length + 4).toUInt8, 0x02, r.length.toUInt8] ++ r ++
    [0x02, s.length.toUInt8] ++ s

def invalid (d : Decoder α) : Decoder α :=
  tryCatch d fun e => throw (.invalidSignature e.message)

/-- Read one DER integer: tag `02`, a nonzero length byte, then the big-endian bytes. -/
def readInteger : Decoder Nat := do
  let tag ← invalid Decoder.u8
  if tag ≠ 0x02 then
    throw (.invalidSignature s!"expected integer tag 0x02, found 0x{byteHex tag}")
  let len ← invalid Decoder.u8
  if len = 0 then throw (.invalidSignature "zero-length integer")
  let bytes ← invalid (Decoder.slice len.toNat)
  return Bytes.toNatBE bytes

def readDer : Decoder Signature := do
  let tag ← invalid Decoder.u8
  if tag ≠ 0x30 then
    throw (.invalidSignature s!"expected sequence tag 0x30, found 0x{byteHex tag}")
  let len ← invalid Decoder.u8
  let rem := (← Decoder.reader).remaining
  if len.toNat ≠ rem then
    throw (.invalidSignature s!"sequence length {len} does not match {rem} remaining bytes")
  let r ← readInteger
  let s ← readInteger
  if !(← Decoder.reader).finished then throw (.invalidSignature "trailing bytes after s")
  return ⟨r, s⟩

def parseDer (der : Bytes) : Outcome Signature :=
  readDer.parse der

def display (sig : Signature) : String :=
  s!"Signature({natHex sig.r},{natHex sig.s})"

end Signature

end Bitcoin
