import Bitcoin.Field
import Mathlib.FieldTheory.Finite.Basic
import Mathlib.Tactic.NormNum.Prime

/-! # Modular arithmetic as arithmetic in `ZMod`

Each operation of `Bitcoin.Field` returns the reduced representative of the corresponding
operation in `ZMod m`. Square-and-multiply computes the power, Fermat's inverse and the extended
Euclidean inverse are both the field inverse when the modulus is a prime above two, and for a prime
`p ≡ 3 (mod 4)` a square root is found exactly for the squares.
-/

namespace Bitcoin.Field

variable {m : Nat}

@[simp] theorem cast_add (a b m : Nat) : ((add a b m : Nat) : ZMod m) = a + b := by
  rw [add, ZMod.natCast_mod, Nat.cast_add]

@[simp] theorem cast_mul (a b m : Nat) : ((mul a b m : Nat) : ZMod m) = a * b := by
  rw [mul, ZMod.natCast_mod, Nat.cast_mul]

theorem cast_sub (a b : Nat) (hm : 0 < m) : ((sub a b m : Nat) : ZMod m) = a - b := by
  have ha := ZMod.natCast_mod a m
  have hb := ZMod.natCast_mod b m
  have hbm := Nat.mod_lt b hm
  simp only [sub]
  split
  · rename_i h
    rw [Nat.cast_sub h, ha, hb]
  · rw [Nat.cast_sub (by omega), Nat.cast_sub (by omega), ZMod.natCast_self, ha, hb]
    ring

@[simp] theorem cast_normalize (a m : Nat) : ((normalize a m : Nat) : ZMod m) = a :=
  ZMod.natCast_mod a m

theorem eq_of_cast_eq {a b : Nat} (ha : a < m) (hb : b < m) (h : (a : ZMod m) = b) : a = b := by
  rw [← Nat.mod_eq_of_lt ha, ← Nat.mod_eq_of_lt hb]
  exact (ZMod.natCast_eq_natCast_iff' a b m).1 h

theorem add_lt (a b : Nat) (hm : 0 < m) : add a b m < m := Nat.mod_lt _ hm

theorem mul_lt (a b : Nat) (hm : 0 < m) : mul a b m < m := Nat.mod_lt _ hm

theorem sub_lt (a b : Nat) (hm : 0 < m) : sub a b m < m := by
  have := Nat.mod_lt a hm
  have := Nat.mod_lt b hm
  simp only [sub]
  split <;> omega

/-! ## Powers -/

theorem powAux_lt (base e acc : Nat) (hm : 0 < m) (hacc : acc < m) : powAux m base e acc < m := by
  induction base, e, acc using powAux.induct m with
  | case1 => rwa [powAux, if_pos rfl]
  | case2 base e acc he ih =>
      rw [powAux, if_neg he]
      apply ih
      split
      · exact Nat.mod_lt _ hm
      · exact hacc

theorem cast_powAux (base e acc : Nat) :
    ((powAux m base e acc : Nat) : ZMod m) = acc * (base : ZMod m) ^ e := by
  induction base, e, acc using powAux.induct m with
  | case1 => rw [powAux, if_pos rfl, pow_zero, mul_one]
  | case2 base e acc he ih =>
      rw [dite_eq_ite] at ih
      rw [powAux, if_neg he, ih]
      -- `e = 2 * (e / 2) + e % 2`: the squared base carries the even part.
      have hsplit : (base : ZMod m) ^ e = (base * base : ZMod m) ^ (e / 2) * base ^ (e % 2) := by
        rw [← sq, ← pow_mul, ← pow_add, Nat.div_add_mod]
      rw [hsplit, ZMod.natCast_mod, Nat.cast_mul]
      split
      · rename_i h
        rw [h, ZMod.natCast_mod, Nat.cast_mul, pow_one]
        ring
      · rename_i h
        rw [show e % 2 = 0 by omega, pow_zero, mul_one]

@[simp] theorem cast_pow (base e m : Nat) : ((pow base e m : Nat) : ZMod m) = (base : ZMod m) ^ e := by
  rw [pow, cast_powAux, ZMod.natCast_mod, ZMod.natCast_mod, Nat.cast_one, one_mul]

theorem pow_lt (base e : Nat) (hm : 0 < m) : pow base e m < m :=
  powAux_lt _ _ _ hm (Nat.mod_lt _ hm)

theorem pow_eq (base e m : Nat) : pow base e m = base ^ e % m := by
  have h := (ZMod.natCast_eq_natCast_iff' (pow base e m) (base ^ e) m).1 (by
    rw [cast_pow, Nat.cast_pow])
  rcases Nat.eq_zero_or_pos m with rfl | hm
  · simpa using h
  · rwa [Nat.mod_eq_of_lt (pow_lt base e hm)] at h

/-! ## Inverses modulo a prime -/

section Prime

variable {p : Nat}

/-- Fermat's inverse `a^(p-2)` is the field inverse modulo a prime above two; zero stays zero. -/
theorem cast_inv (a : Nat) (hp : p.Prime) (h2 : 2 < p) :
    ((inv a p : Nat) : ZMod p) = (a : ZMod p)⁻¹ := by
  have := Fact.mk hp
  rw [inv, cast_pow]
  by_cases ha : (a : ZMod p) = 0
  · rw [ha, inv_zero, zero_pow (by omega)]
  · apply eq_inv_of_mul_eq_one_left
    rw [← pow_succ, show p - 2 + 1 = p - 1 by omega, ZMod.pow_card_sub_one_eq_one ha]

theorem euclid_spec (a : ZMod m) (r0 r1 : Nat) (s0 s1 : Int)
    (h0 : (r0 : ZMod m) = s0 * a) (h1 : (r1 : ZMod m) = s1 * a) :
    (euclid r0 r1 s0 s1).1 = Nat.gcd r0 r1 ∧
      ((euclid r0 r1 s0 s1).1 : ZMod m) = (euclid r0 r1 s0 s1).2 * a := by
  induction r0, r1, s0, s1 using euclid.induct with
  | case1 r0 s0 s1 =>
      rw [euclid, if_pos rfl]
      exact ⟨(Nat.gcd_zero_right r0).symm, h0⟩
  | case2 r0 r1 s0 s1 hr ih =>
      rw [euclid, if_neg hr]
      -- the new remainder `r0 - (r0 / r1) * r1` has the coefficient `s0 - (r0 / r1) * s1`
      have hmod : ((r0 % r1 : Nat) : ZMod m) = (s0 - (r0 / r1 : Nat) * s1 : Int) * a := by
        have hdiv : ((r0 % r1 : Nat) : ZMod m) = r0 - r1 * (r0 / r1 : Nat) := by
          rw [eq_sub_iff_add_eq, ← Nat.cast_mul, ← Nat.cast_add, Nat.mod_add_div]
        rw [hdiv, h0, h1, Int.cast_sub, Int.cast_mul, Int.cast_natCast]
        ring
      obtain ⟨hg, hs⟩ := ih h1 hmod
      refine ⟨?_, hs⟩
      rw [hg, Nat.gcd_comm r0, Nat.gcd_rec r1 r0, Nat.gcd_comm]

/-- The extended Euclidean inverse is the field inverse modulo a prime; zero stays zero. -/
theorem cast_invPrime (a : Nat) (hp : p.Prime) :
    ((invPrime a p : Nat) : ZMod p) = (a : ZMod p)⁻¹ := by
  have := Fact.mk hp
  obtain ⟨hg, hs⟩ := euclid_spec (a : ZMod p) (a % p) p 1 0
    (by rw [ZMod.natCast_mod, Int.cast_one, one_mul]) (by rw [ZMod.natCast_self, Int.cast_zero, zero_mul])
  simp only [invPrime]
  split
  · rename_i hone
    rw [hone, Nat.cast_one] at hs
    have hnonneg : 0 ≤ (euclid (a % p) p 1 0).2 % (p : Int) :=
      Int.emod_nonneg _ (by exact_mod_cast hp.ne_zero)
    rw [← Int.cast_natCast, Int.toNat_of_nonneg hnonneg, ZMod.intCast_mod]
    exact (eq_inv_of_mul_eq_one_left hs.symm)
  · rename_i hone
    -- a gcd other than one with a prime means the prime divides `a`
    have hdvd : p ∣ a % p := by
      by_contra hnd
      exact hone (hg.trans (Nat.Coprime.symm ((Nat.Prime.coprime_iff_not_dvd hp).2 hnd)))
    have hzero : (a : ZMod p) = 0 := by
      rw [← ZMod.natCast_mod, (ZMod.natCast_eq_zero_iff _ _).2 hdvd]
    rw [hzero, inv_zero, Nat.cast_zero]

end Prime

theorem sqrt_lt {a r : Nat} (hm : 0 < m) (h : sqrt a m = some r) : r < m := by
  simp only [sqrt] at h
  split at h
  · cases h
    exact pow_lt _ _ hm
  · cases h

theorem sqrt_mul_self_modEq {a r : Nat} (h : sqrt a m = some r) : r * r ≡ a [MOD m] := by
  simp only [sqrt] at h
  split at h
  · rename_i hroot
    cases h
    exact hroot
  · cases h

theorem cast_mul_self_of_sqrt {a r : Nat} (h : sqrt a m = some r) : (r : ZMod m) * r = a := by
  rw [← Nat.cast_mul, (ZMod.natCast_eq_natCast_iff _ _ _).2 (sqrt_mul_self_modEq h)]

/-! ## Square roots modulo a prime `p ≡ 3 (mod 4)` -/

section ThreeModFour

variable {p : Nat}

/-- Euler's criterion for the candidate root: modulo a prime `p ≡ 3 (mod 4)`, a square `a = y²`
has `a^((p+1)/4) = ±y^((p+1)/2)`, whose square `y^(p+1) = y² · y^(p-1)` is `a`. -/
theorem pow_quarter_sq {a : ZMod p} (hp : p.Prime) (h3 : p % 4 = 3) (ha : IsSquare a) :
    (a ^ ((p + 1) / 4)) ^ 2 = a := by
  have := Fact.mk hp
  obtain ⟨y, rfl⟩ := ha
  rw [← sq, ← pow_mul, ← pow_mul]
  by_cases hy : y = 0
  · rw [hy, zero_pow (by omega), zero_pow two_ne_zero]
  · rw [show 2 * ((p + 1) / 4 * 2) = (p - 1) + 2 by omega, pow_add,
      ZMod.pow_card_sub_one_eq_one hy, one_mul]

theorem sqrt_isSome_of_isSquare {a : Nat} (hp : p.Prime) (h3 : p % 4 = 3)
    (ha : IsSquare (a : ZMod p)) : (sqrt a p).isSome := by
  have hp0 := hp.pos
  have hroot : mul (pow a ((p + 1) / 4) p) (pow a ((p + 1) / 4) p) p = a % p := by
    apply eq_of_cast_eq (mul_lt _ _ hp0) (Nat.mod_lt _ hp0)
    rw [cast_mul, ZMod.natCast_mod, cast_pow, ← sq, pow_quarter_sq hp h3 ha]
  simp only [sqrt, hroot, if_true, Option.isSome_some]

theorem sqrt_mul_self (y : Nat) (hp : p.Prime) (h3 : p % 4 = 3) :
    ∃ r, sqrt (mul y y p) p = some r ∧ r < p ∧ (r : ZMod p) ^ 2 = (y : ZMod p) ^ 2 := by
  have hsq : IsSquare ((mul y y p : Nat) : ZMod p) := ⟨y, cast_mul y y p⟩
  obtain ⟨r, hr⟩ := Option.isSome_iff_exists.1 (sqrt_isSome_of_isSquare hp h3 hsq)
  refine ⟨r, hr, sqrt_lt hp.pos hr, ?_⟩
  rw [sq, sq, cast_mul_self_of_sqrt hr, cast_mul]

/-- Modulo a prime `p ≡ 3 (mod 4)`, `sqrt` finds a root of `a` exactly when `a` is a square modulo
`p`, and the root it finds is reduced and squares to `a`. -/
theorem sqrt_some_iff_isSquare (a : Nat) (hp : p.Prime) (h3 : p % 4 = 3) :
    ((∃ r, sqrt a p = some r) ↔ IsSquare (a : ZMod p)) ∧
      ∀ r, sqrt a p = some r → r < p ∧ r * r ≡ a [MOD p] := by
  refine ⟨⟨?_, fun ha => Option.isSome_iff_exists.1 (sqrt_isSome_of_isSquare hp h3 ha)⟩,
    fun r hr => ⟨sqrt_lt hp.pos hr, sqrt_mul_self_modEq hr⟩⟩
  rintro ⟨r, hr⟩
  exact ⟨r, (cast_mul_self_of_sqrt hr).symm⟩

/-- Thirteen is a square modulo twenty-three, a prime `≡ 3 (mod 4)`. -/
theorem sqrt_some_iff_isSquare_thirteen :
    Nat.Prime 23 ∧ 23 % 4 = 3 ∧
      (((∃ r, sqrt 13 23 = some r) ↔ IsSquare ((13 : Nat) : ZMod 23)) ∧
        ∀ r, sqrt 13 23 = some r → r < 23 ∧ r * r ≡ 13 [MOD 23]) :=
  ⟨by norm_num, by decide, sqrt_some_iff_isSquare 13 (by norm_num) (by decide)⟩

end ThreeModFour

end Bitcoin.Field
