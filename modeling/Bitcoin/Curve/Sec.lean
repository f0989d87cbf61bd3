import Bitcoin.Curve.Point
import Bitcoin.Base58
/-! # SEC public keys and their addresses

A public key is written in SEC form: `04 ‖ x ‖ y` uncompressed, or `02 ‖ x` and `03 ‖ x` compressed,
the prefix giving the parity of `y`, with 32-byte big-endian coordinates. Reading a compressed key
recovers `y` as the square root of `x³ + 7` of the named parity. A key's HASH160 names it in a
pay-to-public-key-hash address.
-/

namespace Bitcoin.Point

variable [Digests] [Base58Codec]

/-- The SEC encoding of a point, compressed or not; the point at infinity has none. -/
def sec (pt : Point) (compressed : Bool) : Outcome Bytes :=
  match pt with
  | infinity _ => .error (.invalidPoint "point at infinity has no SEC encoding")
  | affine x y _ =>
    if compressed then .ok ((if y % 2 = 0 then 0x02 else 0x03) :: Field.toBytes32 x)
    else .ok (0x04 :: Field.toBytes32 x ++ Field.toBytes32 y)

def asPublicKey (r : Outcome Point) : Outcome Point :=
  r.mapError fun e => .invalidPublicKey e.message

/-- Read a compressed key: `x` must be reduced, `x³ + 7` must have a square root, and `y` is the
root or its negation, whichever has the parity the prefix names. -/
def parseCompressed (evenY : Bool) (body : Bytes) : Outcome Point :=
  let p := fieldPrime
  let x := Bytes.toNatBE body
  if x ≥ p then .error (.invalidPublicKey "x coordinate exceeds field prime")
  else
    let alpha := Field.add (Field.pow x 3 p) Curve.secp256k1.b p
    match Field.sqrt alpha p with
    | none => .error (.invalidPublicKey s!"no curve point with x = {natHex x}")
    | some beta =>
      let y := if (beta % 2 = 0) = evenY then beta else Field.sub p beta p
      asPublicKey (onSecp256k1 x y)

/-- Read a public key in SEC form: 65 bytes after `04`, or 33 bytes after `02` or `03`. -/
def parseSec (sec : Bytes) : Outcome Point :=
  match sec with
  | [] => .error (.invalidPublicKey "empty key")
  | prefixByte :: body =>
    if prefixByte = 0x04 ∧ sec.length = 65 then
      asPublicKey (onSecp256k1 (Bytes.toNatBE (body.take 32)) (Bytes.toNatBE (body.drop 32)))
    else if (prefixByte = 0x02 ∨ prefixByte = 0x03) ∧ sec.length = 33 then
      parseCompressed (prefixByte = 0x02) body
    else
      .error (.invalidPublicKey
        s!"unexpected prefix 0x{byteHex prefixByte} with length {sec.length}")

def hash160 (pt : Point) (compressed : Bool) : Outcome (FixedBytes 20) := do
  return Hash.hash160 (← pt.sec compressed)

def address (pt : Point) (compressed : Bool) (network : Network) : Outcome String := do
  return Base58.p2pkhAddress (← pt.hash160 compressed) network

end Bitcoin.Point
