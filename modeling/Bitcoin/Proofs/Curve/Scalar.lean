import Bitcoin.Proofs.Curve.Group

/-! # Scalar multiples and the generator

Doubling and adding over the bits of the scalar computes the scalar multiple of the group, so
`Point.smul` stands for `(k mod N) • P`. The generator `G` lies on secp256k1 and `N • G = 0`,
which the kernel checks by running the library's own double-and-add; since `N` is prime, `G` has
order exactly `N`.
-/

namespace Bitcoin

instance groupOrder_fact : Fact groupOrder.Prime := ⟨Primality.groupOrder_prime⟩

namespace Point

variable {c : Curve} {p q acc : Point} {P A : c.weierstrass.Point}

open Classical in
/-- The point of the curve that `p` stands for, and zero when it stands for none. -/
noncomputable def denote (c : Curve) (p : Point) : c.weierstrass.Point :=
  if h : ∃ P, Represents c p P then h.choose else 0

theorem Represents.denote_eq (h : Represents c p P) : denote c p = P := by
  have hex : ∃ P, Represents c p P := ⟨P, h⟩
  rw [denote, dif_pos hex]
  exact hex.choose_spec.unique h

theorem Represents.mulAux (hp : Represents c p P) (hacc : Represents c acc A) (k : Nat) :
    Represents c (Point.mulAux k p acc) (A + k • P) := by
  induction k, p, acc using Point.mulAux.induct generalizing P A with
  | case1 cur acc =>
      rw [Point.mulAux, if_pos rfl, zero_nsmul, add_zero]
      exact hacc
  | case2 k cur acc hk ih =>
      rw [Point.mulAux, if_neg hk]
      rw [dite_eq_ite] at ih
      -- `k = 2 * (k / 2) + k % 2`: the doubled point carries the even part
      have hsplit : k • P = (k / 2) • (P + P) + (k % 2) • P := by
        rw [← two_nsmul, ← mul_nsmul', ← add_nsmul, Nat.div_add_mod']
      split
      · rename_i hodd
        rw [if_pos hodd] at ih
        have h := ih (hp.add hp) (hacc.add hp)
        rwa [hsplit, hodd, one_nsmul, add_comm _ P, ← add_assoc]
      · rename_i heven
        rw [if_neg heven] at ih
        have h := ih (hp.add hp) hacc
        rwa [hsplit, show k % 2 = 0 by omega, zero_nsmul, add_zero]

/-- The scalar multiple stands for the multiple by the scalar reduced modulo `N`. -/
theorem Represents.smul (hp : Represents c p P) (k : Nat) :
    Represents c (p.smul k) ((k % groupOrder) • P) := by
  have h := hp.mulAux (represents_infinity_self (c := c)) (k % groupOrder)
  rw [zero_add] at h
  rwa [Point.smul, hp.curve_eq]

theorem Represents.x?_eq_none_iff (hp : Represents c p P) : p.x? = none ↔ P = 0 := by
  cases p with
  | infinity c' => exact ⟨fun _ => hp.2, fun _ => rfl⟩
  | affine x y c' =>
      obtain ⟨-, -, -, _, rfl⟩ := hp
      exact ⟨fun h => (nomatch h), fun h => absurd h (WeierstrassCurve.Affine.Point.some_ne_zero _)⟩

/-! ## The generator -/

noncomputable def generatorPoint : Curve.secp256k1.weierstrass.Point :=
  denote Curve.secp256k1 generator

theorem represents_generator : Represents Curve.secp256k1 generator generatorPoint := by
  have hon : onCurve Curve.secp256k1
      0x79be667ef9dcbbac55a06295ce870b07029bfcdb2dce28d959f2815b16f81798
      0x483ada7726a3c4655da4fbfc0e1108a8fd17b448a68554199c47d08ffb10d4b8 = true := by
    decide +kernel
  have hG : Represents Curve.secp256k1 generator (.some _ _
      (Curve.secp256k1_smooth.nonsingular (Curve.onCurve_iff.1 hon))) :=
    ⟨rfl, by decide, by decide, _, rfl⟩
  rw [generatorPoint, hG.denote_eq]
  exact hG

theorem generatorPoint_ne_zero : generatorPoint ≠ 0 := fun h =>
  nomatch (represents_generator.x?_eq_none_iff.2 h)

theorem mulAux_groupOrder_generator :
    Point.mulAux groupOrder generator (infinity Curve.secp256k1) = infinity Curve.secp256k1 := by
  decide +kernel

theorem groupOrder_nsmul_generatorPoint : groupOrder • generatorPoint = 0 := by
  have h := represents_generator.mulAux (represents_infinity_self (c := Curve.secp256k1))
    groupOrder
  rw [mulAux_groupOrder_generator, zero_add] at h
  exact h.2

/-- The generator has order exactly `N`. -/
theorem addOrderOf_generatorPoint : addOrderOf generatorPoint = groupOrder :=
  addOrderOf_eq_prime groupOrder_nsmul_generatorPoint generatorPoint_ne_zero

end Point

end Bitcoin
