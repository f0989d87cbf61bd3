import Bitcoin.Curve.Sec
import Bitcoin.Proofs.Curve.Group
import Bitcoin.Proofs.Bytes

/-! # SEC public keys read back

Every SEC encoding of a point of secp256k1 reads back as the point. The uncompressed form carries
both coordinates. The compressed form carries `x` and the parity of `y`: the square root of
`x³ + 7` that reading finds is `y` or `P - y`, and since `P` is odd these two have different
parities, so the prefix picks `y`.
-/

namespace Bitcoin

namespace Point

open WeierstrassCurve.Affine

variable {x y : Nat} {P : Curve.secp256k1.weierstrass.Point}

theorem toNatBE_toBytes32 {a : Nat} (h : a < fieldPrime) : Bytes.toNatBE (Field.toBytes32 a) = a := by
  rw [Field.toBytes32, toNatBE_beBytes, Nat.mod_eq_of_lt (Nat.lt_trans h (by decide))]

theorem onSecp256k1_of_represents (hp : Represents Curve.secp256k1 (affine x y Curve.secp256k1) P) :
    onSecp256k1 x y = .ok (affine x y Curve.secp256k1) := by
  obtain ⟨-, hx, hy, h, -⟩ := hp
  have hon : onCurve Curve.secp256k1 x y = true := Curve.onCurve_iff.2 h.1
  rw [onSecp256k1, ofCoords, if_neg (by omega), if_pos hon]

theorem sqrt_of_represents (hp : Represents Curve.secp256k1 (affine x y Curve.secp256k1) P) :
    ∃ r, Field.sqrt (Field.add (Field.pow x 3 fieldPrime) Curve.secp256k1.b fieldPrime)
      fieldPrime = some r ∧ r < fieldPrime ∧ (r = y ∨ r + y = fieldPrime) := by
  obtain ⟨-, hx, hy, h, -⟩ := hp
  -- the right-hand side `x³ + 7` is the reduced square of `y`
  have hrhs : Field.add (Field.pow x 3 fieldPrime) Curve.secp256k1.b fieldPrime =
      Field.mul y y fieldPrime := by
    have heq := (WeierstrassCurve.Affine.equation_iff _ _).1 h.1
    apply Field.eq_of_cast_eq (Field.add_lt _ _ fieldPrime_pos) (Field.mul_lt _ _ fieldPrime_pos)
    simp only [Curve.weierstrass_a₁, Curve.weierstrass_a₂, Curve.weierstrass_a₃,
      Curve.weierstrass_a₄, Curve.weierstrass_a₆, zero_mul, add_zero, sq] at heq
    rw [Field.cast_add, Field.cast_pow, Field.cast_mul, heq]
    simp [Curve.secp256k1]
  obtain ⟨r, hsqrt, hr, hsq⟩ := Field.sqrt_mul_self y Primality.fieldPrime_prime (by decide)
  refine ⟨r, hrhs ▸ hsqrt, hr, ?_⟩
  rcases sq_eq_sq_iff_eq_or_eq_neg.1 hsq with hpos | hneg
  · exact Or.inl ((cast_inj_of_lt hr hy).1 hpos)
  · -- `r ≡ -y`: either both are zero or they add up to `P`
    have hsum : ((r + y : Nat) : BaseField) = 0 := by
      rw [Nat.cast_add, hneg, neg_add_cancel]
    rw [ZMod.natCast_eq_zero_iff] at hsum
    obtain ⟨k, hk⟩ := hsum
    rcases k with _ | _ | k
    · exact Or.inl (by omega)
    · exact Or.inr (by omega)
    · exact absurd hk (by nlinarith)

theorem fieldPrime_odd : fieldPrime % 2 = 1 := by decide

theorem select_root {r : Nat} (hr : r < fieldPrime) (hy : y < fieldPrime)
    (hroot : r = y ∨ r + y = fieldPrime) :
    (if (r % 2 = 0) = (decide (y % 2 = 0) = true) then r
      else Field.sub fieldPrime r fieldPrime) = y := by
  have hodd := fieldPrime_odd
  rcases hroot with rfl | hsum
  · rw [if_pos (by rw [decide_eq_true_iff])]
  · -- `r + y = P` is odd, so `r` and `y` differ in parity and `P - r` is `y`
    have hpar : ¬((r % 2 = 0) = (decide (y % 2 = 0) = true)) := by
      rw [decide_eq_true_iff, eq_iff_iff]
      omega
    rw [if_neg hpar, Field.sub, Nat.mod_self, Nat.mod_eq_of_lt hr, if_neg (by omega)]
    omega

theorem length_sec_le {p : Point} {compressed : Bool} {bytes : Bytes}
    (h : p.sec compressed = .ok bytes) : bytes.length ≤ 65 := by
  cases p with
  | infinity c => exact nomatch h
  | affine x y c =>
      cases compressed <;>
        simp only [sec, Bool.false_eq_true, if_false, if_true, Except.ok.injEq] at h <;>
        subst h <;> simp [Field.toBytes32]

/-- Every SEC encoding of a point of secp256k1 reads back as the point. -/
theorem parseSec_sec {p : Point} (hp : Represents Curve.secp256k1 p P) (compressed : Bool)
    {bytes : Bytes} (h : p.sec compressed = .ok bytes) : parseSec bytes = .ok p := by
  cases p with
  | infinity c => exact nomatch h
  | affine x y c =>
      obtain rfl : c = Curve.secp256k1 := hp.1
      have hx := hp.2.1
      have hy := hp.2.2.1
      cases compressed with
      | false =>
          simp only [sec, Bool.false_eq_true, if_false, Except.ok.injEq] at h
          subst h
          have hbody : (Field.toBytes32 x ++ Field.toBytes32 y).take 32 = Field.toBytes32 x := by
            simp [Field.toBytes32]
          have hbody' : (Field.toBytes32 x ++ Field.toBytes32 y).drop 32 = Field.toBytes32 y := by
            simp [Field.toBytes32]
          rw [List.cons_append, parseSec.eq_2, if_pos ⟨rfl, by simp [Field.toBytes32]⟩, hbody, hbody',
            toNatBE_toBytes32 hx, toNatBE_toBytes32 hy, onSecp256k1_of_represents hp]
          rfl
      | true =>
          simp only [sec, if_true, Except.ok.injEq] at h
          subst h
          obtain ⟨r, hsqrt, hr, hroot⟩ := sqrt_of_represents hp
          have hprefix : (if y % 2 = 0 then (0x02 : UInt8) else 0x03) ≠ 0x04 := by
            split <;> decide
          have heven : decide ((if y % 2 = 0 then (0x02 : UInt8) else 0x03) = 0x02) =
              decide (y % 2 = 0) := by
            split <;> simp_all
          rw [parseSec.eq_2, if_neg (fun h' => hprefix h'.1), if_pos ⟨by split <;> simp, by
            simp [Field.toBytes32]⟩, heven, parseCompressed, toNatBE_toBytes32 hx,
            if_neg (by omega)]
          simp only [hsqrt]
          rw [select_root hr hy hroot, onSecp256k1_of_represents hp]
          rfl

end Point

end Bitcoin
