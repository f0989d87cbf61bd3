import Bitcoin.Proofs.Curve.Law

/-! # SEC keys are canonical

Every point of secp256k1 other than infinity reads back from either SEC form, and every string
that reads as a point is that point's SEC form, compressed exactly when it has 33 bytes. The
compressed form relies on there being no point with `y = 0`, so that the parity byte picks one of
the two roots: `-7` is not a cube modulo `P`, since `P ≡ 1 (mod 3)` and
`(-7)^((P-1)/3) ≠ 1`.
-/

namespace Bitcoin

namespace Point

open WeierstrassCurve.Affine

variable {x y : Nat} {q : Point}

/-! ## The curve has no point of order two -/

theorem fieldPrime_mod_three : fieldPrime % 3 = 1 := by decide

theorem pow_neg_seven_ne_one :
    Field.pow (fieldPrime - 7) ((fieldPrime - 1) / 3) fieldPrime ≠ 1 := by
  decide +kernel

theorem seven_ne_zero_baseField : (7 : BaseField) ≠ 0 := by
  have h : ((7 : Nat) : BaseField) ≠ ((0 : Nat) : BaseField) :=
    (cast_inj_of_lt (by decide) fieldPrime_pos).not.2 (by decide)
  simpa using h

/-- `-7` is not a cube modulo `P`, so `x³ + 7` has no root. -/
theorem cube_add_seven_ne_zero (x : BaseField) : x ^ 3 + 7 ≠ 0 := by
  intro hroot
  have hx : x ≠ 0 := by
    rintro rfl
    exact seven_ne_zero_baseField (by simpa using hroot)
  have hcube : x ^ 3 = -7 := eq_neg_of_add_eq_zero_left hroot
  -- a cube raised to `(P-1)/3` is a power `P - 1`, which Fermat makes one
  have hone : (-7 : BaseField) ^ ((fieldPrime - 1) / 3) = 1 := by
    have h3 : 3 * ((fieldPrime - 1) / 3) = fieldPrime - 1 := by
      have := fieldPrime_mod_three
      omega
    rw [← hcube, ← pow_mul, h3, ZMod.pow_card_sub_one_eq_one hx]
  have hcast : ((Field.pow (fieldPrime - 7) ((fieldPrime - 1) / 3) fieldPrime : Nat) :
      BaseField) = ((1 : Nat) : BaseField) := by
    rw [Field.cast_pow, Nat.cast_sub (by decide), ZMod.natCast_self, zero_sub, Nat.cast_one]
    exact hone
  exact pow_neg_seven_ne_one
    ((cast_inj_of_lt (Field.pow_lt _ _ fieldPrime_pos) (by decide)).1 hcast)

theorem y_ne_zero_of_onCurve (h : onCurve Curve.secp256k1 x y = true) : y ≠ 0 := by
  rintro rfl
  have heq := (equation_iff _ _).1 (Curve.onCurve_iff.1 h)
  simp only [Curve.weierstrass_a₁, Curve.weierstrass_a₂, Curve.weierstrass_a₃,
    Curve.weierstrass_a₄, Curve.weierstrass_a₆, Curve.secp256k1, Nat.cast_zero, Nat.cast_ofNat,
    zero_mul, mul_zero, add_zero, ne_eq, OfNat.ofNat_ne_zero, not_false_eq_true,
    zero_pow] at heq
  exact cube_add_seven_ne_zero x heq.symm

/-! ## What a SEC string reads as -/

theorem asPublicKey_eq_ok {r : Outcome Point} : asPublicKey r = .ok q ↔ r = .ok q := by
  cases r <;> simp [asPublicKey, Except.mapError]

theorem onSecp256k1_eq_ok :
    onSecp256k1 x y = .ok q ↔
      q = affine x y Curve.secp256k1 ∧ x < fieldPrime ∧ y < fieldPrime ∧
        onCurve Curve.secp256k1 x y = true :=
  ofCoords_eq_ok_iff

theorem selected_root_parity {β : Nat} {evenY : Bool} (hβ : β < fieldPrime)
    (hne : (if (β % 2 = 0) = (evenY = true) then β else Field.sub fieldPrime β fieldPrime) ≠ 0) :
    (if (β % 2 = 0) = (evenY = true) then β else Field.sub fieldPrime β fieldPrime) % 2 = 0 ↔
      evenY = true := by
  have hodd := fieldPrime_odd
  split_ifs at hne ⊢ with hsame
  · exact Iff.of_eq hsame
  · -- the other root is `P - β`, of the other parity since `P` is odd
    simp only [Field.sub, Nat.mod_self, Nat.mod_eq_of_lt hβ, Nat.le_zero] at hne ⊢
    split_ifs at hne ⊢ with hzero
    · exact absurd (Nat.zero_sub β) hne
    · cases evenY <;> simp only [Bool.false_eq_true, eq_iff_iff, iff_false, iff_true] at hsame ⊢ <;>
        omega

theorem parseCompressed_eq_ok {evenY : Bool} {body : Bytes} (h : parseCompressed evenY body = .ok q) :
    ∃ y, q = affine (Bytes.toNatBE body) y Curve.secp256k1 ∧ (y % 2 = 0 ↔ evenY = true) := by
  unfold parseCompressed at h
  dsimp only at h
  split_ifs at h with hx
  split at h
  · cases h
  · rename_i β hsqrt
    obtain ⟨rfl, -, -, hon⟩ := onSecp256k1_eq_ok.1 (asPublicKey_eq_ok.1 h)
    -- the point found is on the curve, so its `y` is not zero and has the parity asked for
    exact ⟨_, rfl, selected_root_parity (Field.sqrt_lt fieldPrime_pos hsqrt)
      (y_ne_zero_of_onCurve hon)⟩

theorem toBytes32_toNatBE {bs : Bytes} (h : bs.length = 32) :
    Field.toBytes32 (Bytes.toNatBE bs) = bs := by
  rw [Field.toBytes32, ← h, beBytes_toNatBE]

/-- What reads as a point is the point's SEC form, compressed exactly when it has 33 bytes. -/
theorem sec_of_parseSec {b : Bytes} (h : parseSec b = .ok q) : q.sec (b.length == 33) = .ok b := by
  match b with
  | [] => cases h
  | pre :: body =>
      rw [parseSec.eq_2] at h
      split_ifs at h with hfull hcomp
      · -- uncompressed: both coordinates are the numbers of their 32 bytes
        obtain ⟨rfl, -, -, -⟩ := onSecp256k1_eq_ok.1 (asPublicKey_eq_ok.1 h)
        obtain ⟨rfl, hfull⟩ := hfull
        have hlen : body.length = 64 := by simpa using hfull
        rw [hfull]
        simp only [sec, if_neg (by decide : ¬((65 == 33) = true)),
          toBytes32_toNatBE (by simp [hlen] : (body.take 32).length = 32),
          toBytes32_toNatBE (by simp [hlen] : (body.drop 32).length = 32), List.cons_append,
          List.take_append_drop]
      · -- compressed: `x` is the number of the body, and the parity of `y` gives the prefix
        obtain ⟨y, rfl, hpar⟩ := parseCompressed_eq_ok h
        have hlen : body.length = 32 := by simpa using hcomp.2
        have hpre : (if y % 2 = 0 then (0x02 : UInt8) else 0x03) = pre := by
          rcases hcomp.1 with rfl | rfl
          · rw [if_pos (hpar.2 (by decide))]
          · rw [if_neg (fun h' => absurd (hpar.1 h') (by decide))]
        rw [hcomp.2]
        simp only [sec, beq_self_eq_true, if_true, hpre, toBytes32_toNatBE hlen]

theorem parseSec_sec_of_isValid (hq : q.IsValid Curve.secp256k1) (hinf : q ≠ infinity Curve.secp256k1)
    (compressed : Bool) : (q.sec compressed >>= parseSec) = .ok q := by
  cases q with
  | infinity c => exact absurd (by rw [isValid_infinity_iff.1 hq]) hinf
  | affine x y c =>
      obtain ⟨bytes, hsec⟩ : ∃ bytes, (affine x y c).sec compressed = .ok bytes := by
        cases compressed <;> simp [sec]
      rw [hsec]
      exact parseSec_sec (hq.represents Curve.secp256k1_smooth) compressed hsec

/-- SEC writing and reading are inverse: a point of secp256k1 reads back from either form, and
a string that reads as a point is that point's form with 33 bytes compressed. -/
theorem parseSec_sec_inverse :
    (∀ q : Point, q.IsValid Curve.secp256k1 → q ≠ infinity Curve.secp256k1 →
      ∀ compressed : Bool, (q.sec compressed >>= parseSec) = .ok q) ∧
    (∀ (b : Bytes) (q : Point), parseSec b = .ok q → q.sec (b.length == 33) = .ok b) :=
  ⟨fun _ hq hinf compressed => parseSec_sec_of_isValid hq hinf compressed,
    fun _ _ h => sec_of_parseSec h⟩

end Point

end Bitcoin
