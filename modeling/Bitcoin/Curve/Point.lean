import Bitcoin.Field
import Bitcoin.Error
/-! # Points of secp256k1

Points live on a curve `y² = x³ + a·x + b` over the field of the prime `P = 2²⁵⁶ - 2³² - 977`.
The Bitcoin curve secp256k1 has `a = 0` and `b = 7`, and its generator `G` has the prime order
`N`. The group law is the chord-and-tangent rule, checked case by case in a fixed order, and a
scalar multiple is computed by doubling and adding over the bits of the scalar reduced modulo
`N`, least significant bit first. Every point remembers the coefficients of its curve, and a sum
takes those of its first operand.
-/

namespace Bitcoin

/-- The field prime `P = 2²⁵⁶ - 2³² - 977`. -/
def fieldPrime : Nat := (1 <<< 256) - (1 <<< 32) - 977

def groupOrder : Nat := 0xfffffffffffffffffffffffffffffffebaaedce6af48a03bbfd25e8cd0364141

/-- Half the group order, rounded down: the largest `s` of a low-s signature. -/
def halfOrder : Nat := groupOrder / 2

/-- Whether a number is a usable secret or nonce: `1 ≤ k < N`. -/
def isValidScalar (k : Nat) : Bool := 1 ≤ k && k < groupOrder

/-- The coefficients `a` and `b` of a curve `y² = x³ + a·x + b` over the field of `P`. They are
kept as given and reduced only inside arithmetic. -/
structure Curve where
  /-- The linear coefficient. -/
  a : Nat
  /-- The constant coefficient. -/
  b : Nat
  deriving Repr, DecidableEq

def Curve.secp256k1 : Curve := ⟨0, 7⟩

/-- A point of a curve: the point at infinity, or one with affine coordinates. -/
inductive Point where
  /-- The identity of the group law. -/
  | infinity (curve : Curve)
  /-- The point `(x, y)`. -/
  | affine (x y : Nat) (curve : Curve)
  deriving Repr, DecidableEq

namespace Point

def generator : Point :=
  .affine 0x79be667ef9dcbbac55a06295ce870b07029bfcdb2dce28d959f2815b16f81798
    0x483ada7726a3c4655da4fbfc0e1108a8fd17b448a68554199c47d08ffb10d4b8 Curve.secp256k1

def curve : Point → Curve
  | infinity c => c
  | affine _ _ c => c

def x? : Point → Option Nat
  | infinity _ => none
  | affine x _ _ => some x

/-- Whether `(x, y)` satisfies the curve equation modulo `P`. -/
def onCurve (c : Curve) (x y : Nat) : Bool :=
  let p := fieldPrime
  Field.mul y y p == Field.add (Field.add (Field.pow x 3 p) (Field.mul c.a x p) p) c.b p

/-- The point `(x, y)` of a curve, if both coordinates are reduced and satisfy its equation. -/
def ofCoords (x y : Nat) (c : Curve) : Outcome Point :=
  if x ≥ fieldPrime ∨ y ≥ fieldPrime then
    .error (.invalidPoint "coordinate not reduced modulo the field prime")
  else if onCurve c x y then .ok (.affine x y c)
  else .error (.invalidPoint s!"({natHex x}, {natHex y}) is not on the curve")

def onSecp256k1 (x y : Nat) : Outcome Point :=
  ofCoords x y Curve.secp256k1

/-- The third point on the line of slope `s` through `(x1, y1)` and `(x2, _)`, reflected. -/
def chordPoint (s x1 y1 x2 : Nat) (c : Curve) : Point :=
  let p := fieldPrime
  let x3 := Field.sub (Field.sub (Field.mul s s p) x1 p) x2 p
  let y3 := Field.sub (Field.mul s (Field.sub x1 x3 p) p) y1 p
  .affine x3 y3 c

def fieldDiv (a b : Nat) : Nat :=
  Field.mul a (Field.invPrime b fieldPrime) fieldPrime

/-- The group law. The cases are tried in order: either point at infinity; equal `x` with
different `y`, which gives infinity; different `x`, by the chord; `y = 0`, which gives infinity;
otherwise the tangent, using the first point's `a`. -/
def add : Point → Point → Point
  | infinity _, q => q
  | affine x1 y1 c, infinity _ => affine x1 y1 c
  | affine x1 y1 c, affine x2 y2 _ =>
    let p := fieldPrime
    if x1 = x2 ∧ y1 ≠ y2 then infinity c
    else if x1 ≠ x2 then
      chordPoint (fieldDiv (Field.sub y2 y1 p) (Field.sub x2 x1 p)) x1 y1 x2 c
    else if y1 = 0 then infinity c
    else
      let numerator := Field.add (Field.mul 3 (Field.mul x1 x1 p) p) c.a p
      chordPoint (fieldDiv numerator (Field.mul 2 y1 p)) x1 y1 x2 c

/-- Double and add over the bits of `k`, least significant first: `acc + k·current`. -/
def mulAux (k : Nat) (current acc : Point) : Point :=
  if k = 0 then acc
  else mulAux (k / 2) (current.add current) (if k % 2 = 1 then acc.add current else acc)
termination_by k
decreasing_by omega

/-- The scalar multiple `k·P`, with `k` first reduced modulo the group order `N`. -/
def smul (pt : Point) (k : Nat) : Point :=
  mulAux (k % groupOrder) pt (infinity pt.curve)

def display : Point → String
  | infinity _ => "Point(infinity)"
  | affine x y _ => s!"Point({natHexPadded 64 x}, {natHexPadded 64 y})"

end Point

end Bitcoin
