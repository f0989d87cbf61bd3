import Bitcoin.Proofs.Primality
import Mathlib.AlgebraicGeometry.EllipticCurve.Affine.Point

/-! # The chord-and-tangent rule is the group law

A `Point` of a curve `c` stands for a point of the Weierstrass curve `y² = x³ + a·x + b` over
`ZMod P`: infinity for the identity, and `(x, y)` with reduced coordinates for the affine point
with those residues. `Point.Represents` is that correspondence. For a smooth curve, adding two
points that stand for `P` and `Q` gives a point that stands for `P + Q` in Mathlib's group of
the curve; the five cases of `Point.add` are matched against Mathlib's definition one by one.
-/

namespace Bitcoin

instance fieldPrime_fact : Fact fieldPrime.Prime := ⟨Primality.fieldPrime_prime⟩

abbrev BaseField := ZMod fieldPrime

theorem fieldPrime_pos : 0 < fieldPrime := Primality.fieldPrime_prime.pos

theorem two_ne_zero_baseField : (2 : BaseField) ≠ 0 := by
  intro h
  have h2 := (ZMod.natCast_eq_zero_iff 2 fieldPrime).1 (by exact_mod_cast h)
  have := Nat.le_of_dvd (by omega) h2
  simp [fieldPrime] at this

theorem cast_inj_of_lt {a b : Nat} (ha : a < fieldPrime) (hb : b < fieldPrime) :
    (a : BaseField) = b ↔ a = b :=
  ⟨Field.eq_of_cast_eq ha hb, fun h => h ▸ rfl⟩

namespace Curve

def weierstrass (c : Curve) : WeierstrassCurve.Affine BaseField :=
  ⟨0, 0, 0, c.a, c.b⟩

/-- A curve is smooth when `4a³ + 27b² ≢ 0 (mod P)`. -/
def Smooth (c : Curve) : Prop := (4 * c.a ^ 3 + 27 * c.b ^ 2) % fieldPrime ≠ 0

instance (c : Curve) : Decidable c.Smooth := inferInstanceAs (Decidable (_ ≠ _))

@[simp] theorem weierstrass_a₁ (c : Curve) : c.weierstrass.a₁ = 0 := rfl
@[simp] theorem weierstrass_a₂ (c : Curve) : c.weierstrass.a₂ = 0 := rfl
@[simp] theorem weierstrass_a₃ (c : Curve) : c.weierstrass.a₃ = 0 := rfl
@[simp] theorem weierstrass_a₄ (c : Curve) : c.weierstrass.a₄ = c.a := rfl
@[simp] theorem weierstrass_a₆ (c : Curve) : c.weierstrass.a₆ = c.b := rfl

theorem weierstrass_Δ (c : Curve) :
    c.weierstrass.Δ = -16 * ((4 * c.a ^ 3 + 27 * c.b ^ 2 : Nat) : BaseField) := by
  simp only [WeierstrassCurve.Δ, WeierstrassCurve.b₂, WeierstrassCurve.b₄, WeierstrassCurve.b₆,
    WeierstrassCurve.b₈, weierstrass_a₁, weierstrass_a₂, weierstrass_a₃, weierstrass_a₄,
    weierstrass_a₆]
  push_cast
  ring

theorem Smooth.Δ_ne_zero {c : Curve} (hc : c.Smooth) : c.weierstrass.Δ ≠ 0 := by
  rw [weierstrass_Δ]
  have h16 : (16 : BaseField) ≠ 0 := by
    have : (16 : BaseField) = 2 ^ 4 := by norm_num
    rw [this]
    exact pow_ne_zero 4 two_ne_zero_baseField
  refine mul_ne_zero (neg_ne_zero.2 h16) ?_
  rwa [Ne, ZMod.natCast_eq_zero_iff, Nat.dvd_iff_mod_eq_zero]

theorem secp256k1_smooth : secp256k1.Smooth := by decide

theorem Smooth.nonsingular {c : Curve} (hc : c.Smooth) {x y : BaseField}
    (h : c.weierstrass.Equation x y) : c.weierstrass.Nonsingular x y :=
  (WeierstrassCurve.Affine.equation_iff_nonsingular_of_Δ_ne_zero hc.Δ_ne_zero).1 h

/-- The equation check of the library is the curve equation on residues. -/
theorem onCurve_iff {c : Curve} {x y : Nat} :
    Point.onCurve c x y = true ↔ c.weierstrass.Equation x y := by
  rw [Point.onCurve, beq_iff_eq, ← cast_inj_of_lt (Field.mul_lt _ _ fieldPrime_pos)
    (Field.add_lt _ _ fieldPrime_pos), WeierstrassCurve.Affine.equation_iff]
  simp only [Field.cast_mul, Field.cast_add, Field.cast_pow, weierstrass_a₁, weierstrass_a₂,
    weierstrass_a₃, weierstrass_a₄, weierstrass_a₆, zero_mul, add_zero, sq]

end Curve

namespace Point

open WeierstrassCurve.Affine

/-- `p` stands for the point `P` of the curve `c`: infinity for zero, and reduced coordinates for
the affine point with those residues. -/
def Represents (c : Curve) : Point → c.weierstrass.Point → Prop
  | infinity c', P => c' = c ∧ P = 0
  | affine x y c', P =>
    c' = c ∧ x < fieldPrime ∧ y < fieldPrime ∧ ∃ h, P = .some (x : BaseField) y h

variable {c : Curve} {p q : Point} {P Q : c.weierstrass.Point}

@[simp] theorem represents_infinity {c' : Curve} :
    Represents c (infinity c') P ↔ c' = c ∧ P = 0 := Iff.rfl

theorem represents_infinity_self : Represents c (infinity c) 0 := ⟨rfl, rfl⟩

theorem Represents.curve_eq (h : Represents c p P) : p.curve = c := by
  cases p with
  | infinity c' => exact h.1
  | affine x y c' => exact h.1

theorem Represents.unique (hP : Represents c p P) (hQ : Represents c p Q) : P = Q := by
  cases p with
  | infinity c' => rw [hP.2, hQ.2]
  | affine x y c' =>
      obtain ⟨-, -, -, _, rfl⟩ := hP
      obtain ⟨-, -, -, _, rfl⟩ := hQ
      rfl

theorem Represents.inj (hp : Represents c p P) (hq : Represents c q P) : p = q := by
  cases p with
  | infinity c' =>
      cases q with
      | infinity c'' => rw [hp.1, hq.1]
      | affine x y c'' =>
          obtain ⟨-, -, -, _, hsome⟩ := hq
          exact absurd (hp.2.symm.trans hsome) (Point.some_ne_zero _).symm
  | affine x y c' =>
      cases q with
      | infinity c'' =>
          obtain ⟨-, -, -, _, hsome⟩ := hp
          exact absurd (hq.2.symm.trans hsome) (Point.some_ne_zero _).symm
      | affine x' y' c'' =>
          obtain ⟨rfl, hx, hy, _, rfl⟩ := hp
          obtain ⟨rfl, hx', hy', _, heq⟩ := hq
          obtain ⟨hxx, hyy⟩ := Point.some.inj heq
          rw [(cast_inj_of_lt hx hx').1 hxx, (cast_inj_of_lt hy hy').1 hyy]

theorem Represents.x?_neg (hp : Represents c p P) (hq : Represents c q (-P)) : p.x? = q.x? := by
  cases p with
  | infinity c' =>
      rw [hp.2, neg_zero] at hq
      rw [← represents_infinity_self.inj hq]
      rfl
  | affine x y c' =>
      obtain ⟨rfl, hx, -, hns, rfl⟩ := hp
      cases q with
      | infinity c'' => exact absurd hq.2 (by rw [Point.neg_some]; exact Point.some_ne_zero _)
      | affine x' y' c'' =>
          obtain ⟨-, hx', -, _, heq⟩ := hq
          rw [Point.neg_some] at heq
          simp only [x?, (cast_inj_of_lt hx hx').1 (Point.some.inj heq).1]

theorem cast_fieldDiv (a b : Nat) : ((fieldDiv a b : Nat) : BaseField) = a / b := by
  rw [fieldDiv, Field.cast_mul, Field.cast_invPrime _ Primality.fieldPrime_prime, div_eq_mul_inv]

theorem represents_chordPoint {s x1 y1 x2 y2 : Nat} {h1 : c.weierstrass.Nonsingular x1 y1}
    {h2 : c.weierstrass.Nonsingular x2 y2}
    (hxy : ¬((x1 : BaseField) = x2 ∧ (y1 : BaseField) = c.weierstrass.negY x2 y2))
    (hs : (s : BaseField) = c.weierstrass.slope x1 x2 y1 y2) :
    Represents c (chordPoint s x1 y1 x2 c) (.some _ _ h1 + .some _ _ h2) := by
  rw [Point.add_some hxy]
  refine ⟨rfl, Field.sub_lt _ _ fieldPrime_pos, Field.sub_lt _ _ fieldPrime_pos, ?_⟩
  -- the coordinates of the reflected point are Mathlib's `addX` and `addY`
  have hx3 : ((Field.sub (Field.sub (Field.mul s s fieldPrime) x1 fieldPrime) x2 fieldPrime : Nat) :
      BaseField) = c.weierstrass.addX x1 x2 (c.weierstrass.slope x1 x2 y1 y2) := by
    rw [Field.cast_sub _ _ fieldPrime_pos, Field.cast_sub _ _ fieldPrime_pos, Field.cast_mul, hs,
      WeierstrassCurve.Affine.addX, Curve.weierstrass_a₁, Curve.weierstrass_a₂]
    ring
  have hy3 : ((Field.sub (Field.mul s (Field.sub x1 (Field.sub (Field.sub (Field.mul s s fieldPrime)
      x1 fieldPrime) x2 fieldPrime) fieldPrime) fieldPrime) y1 fieldPrime : Nat) : BaseField) =
      c.weierstrass.addY x1 x2 y1 (c.weierstrass.slope x1 x2 y1 y2) := by
    rw [Field.cast_sub _ _ fieldPrime_pos, Field.cast_mul, Field.cast_sub _ _ fieldPrime_pos, hx3,
      hs, WeierstrassCurve.Affine.addY, WeierstrassCurve.Affine.negY,
      WeierstrassCurve.Affine.negAddY, Curve.weierstrass_a₁, Curve.weierstrass_a₃]
    ring
  refine ⟨by rw [hx3, hy3]; exact nonsingular_add h1 h2 hxy, ?_⟩
  simp only [Point.some.injEq]
  exact ⟨hx3.symm, hy3.symm⟩

/-- The group law: on a smooth curve, the sum of points standing for `P` and `Q` stands for
`P + Q`. -/
theorem Represents.add (hp : Represents c p P) (hq : Represents c q Q) :
    Represents c (p.add q) (P + Q) := by
  cases p with
  | infinity c' =>
      obtain ⟨-, rfl⟩ := hp
      rwa [zero_add]
  | affine x1 y1 c' =>
      cases q with
      | infinity c'' =>
          obtain ⟨-, rfl⟩ := hq
          rwa [add_zero]
      | affine x2 y2 c'' =>
          obtain ⟨hc1, hx1, hy1, h1, rfl⟩ := hp
          obtain ⟨hc2, hx2, hy2, h2, rfl⟩ := hq
          subst c' c''
          have hxx := cast_inj_of_lt hx1 hx2
          have hyy := cast_inj_of_lt hy1 hy2
          simp only [Point.add]
          split_ifs with hopp hchord hzero
          · -- equal `x` and different `y`: the points are opposite
            have hneg := (Y_eq_of_X_eq h1.1 h2.1 (hxx.2 hopp.1)).resolve_left (hopp.2 ∘ hyy.1)
            exact ⟨rfl, Point.add_of_Y_eq (hxx.2 hopp.1) hneg⟩
          · exact represents_chordPoint (fun h => hchord (hxx.1 h.1)) (by
              rw [slope_of_X_ne (hchord ∘ hxx.1), cast_fieldDiv, Field.cast_sub _ _ fieldPrime_pos,
                Field.cast_sub _ _ fieldPrime_pos, ← neg_sub (y1 : BaseField), ← neg_sub (x1 : BaseField),
                neg_div_neg_eq])
          · -- a point with `y = 0` is its own negation
            obtain rfl : x1 = x2 := not_not.1 hchord
            obtain rfl : y1 = y2 := by by_contra hne; exact hopp ⟨rfl, hne⟩
            refine ⟨rfl, Point.add_of_Y_eq rfl ?_⟩
            simp [hzero]
          · -- the tangent at a point with `y ≠ 0`
            obtain rfl : x1 = x2 := not_not.1 hchord
            obtain rfl : y1 = y2 := by by_contra hne; exact hopp ⟨rfl, hne⟩
            have hy0 : (y1 : BaseField) ≠ 0 := by
              rw [← Nat.cast_zero, Ne, cast_inj_of_lt hy1 fieldPrime_pos]
              exact hzero
            have hnegY : (y1 : BaseField) ≠ c.weierstrass.negY x1 y1 := by
              intro h
              simp only [negY, Curve.weierstrass_a₁, Curve.weierstrass_a₃, zero_mul, sub_zero] at h
              exact hy0 ((mul_eq_zero.1 (show (2 : BaseField) * y1 = 0 by linear_combination h)
                ).resolve_left two_ne_zero_baseField)
            exact represents_chordPoint (fun h => hnegY h.2) (by
              rw [slope_of_Y_ne rfl hnegY, cast_fieldDiv, Field.cast_add, Field.cast_mul,
                Field.cast_mul, Field.cast_mul]
              simp only [negY, Curve.weierstrass_a₁, Curve.weierstrass_a₂, Curve.weierstrass_a₃,
                Curve.weierstrass_a₄]
              congr 1 <;> push_cast <;> ring)

end Point

end Bitcoin
