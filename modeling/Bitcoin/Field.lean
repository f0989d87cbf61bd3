import Bitcoin.Bytes
/-! # Arithmetic modulo a prime

Field elements and scalars are natural numbers taken modulo an explicit modulus, so the same
operations serve the field prime and the group order. Operands need not be reduced; results lie
in `[0, m)` for a positive modulus. Inverses use Fermat's little theorem, `a⁻¹ = a^(m-2)`, so the
inverse of zero is zero; square roots use `a^((m+1)/4)`, which is a root exactly for the
residues when `m ≡ 3 (mod 4)`.
-/

namespace Bitcoin.Field

def add (a b m : Nat) : Nat := (a + b) % m

/-- `a - b mod m`, from the reduced operands and never negative. -/
def sub (a b m : Nat) : Nat :=
  let a := a % m
  let b := b % m
  if b ≤ a then a - b else m - (b - a)

def mul (a b m : Nat) : Nat := (a * b) % m

/-- Square-and-multiply from the least significant bit of the exponent: `acc · base^e mod m`. -/
def powAux (m base e acc : Nat) : Nat :=
  if e = 0 then acc
  else powAux m (base * base % m) (e / 2) (if e % 2 = 1 then acc * base % m else acc)
termination_by e
decreasing_by omega

/-- `base^e mod m`; modulo one every power is zero. -/
def pow (base e m : Nat) : Nat :=
  powAux m (base % m) e (1 % m)

/-- The inverse by Fermat's little theorem, `a^(m-2) mod m`; zero maps to zero. -/
def inv (a m : Nat) : Nat := pow a (m - 2) m

/-- The extended Euclidean algorithm on `(r₀, r₁)` with the coefficients `s₀`, `s₁` of the
first operand: the last nonzero remainder and its coefficient. -/
def euclid (r0 r1 : Nat) (s0 s1 : Int) : Nat × Int :=
  if r1 = 0 then (r0, s0)
  else euclid r1 (r0 % r1) s1 (s0 - (r0 / r1 : Nat) * s1)
termination_by r1
decreasing_by exact Nat.mod_lt _ (Nat.pos_of_ne_zero ‹_›)

/-- The inverse modulo a prime by the extended Euclidean algorithm, and zero for zero. For a
prime `m` it is `inv a m`, found in fewer steps. -/
def invPrime (a m : Nat) : Nat :=
  let (g, s) := euclid (a % m) m 1 0
  if g = 1 then (s % (m : Int)).toNat else 0

/-- `a / b mod m`, that is `a · b^(m-2)`. -/
def div (a b m : Nat) : Nat := mul a (inv b m) m

/-- `a^((m+1)/4)` when its square is `a mod m`; otherwise `a` has no square root this way. -/
def sqrt (a m : Nat) : Option Nat :=
  let root := pow a ((m + 1) / 4) m
  if mul root root m = a % m then some root else none

def normalize (a m : Nat) : Nat := a % m

/-- The 32-byte big-endian form of a number: left-padded with zeros, and only the low 32 bytes of a
longer number. -/
def toBytes32 (a : Nat) : Bytes := beBytes 32 a

end Bitcoin.Field
