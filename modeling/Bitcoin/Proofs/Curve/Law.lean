import Bitcoin.Proofs.Curve.Scalar
import Bitcoin.Proofs.Curve.Sec

/-! # Valid points form the group of the curve

On a smooth curve the valid points (infinity, or what `ofCoords` accepts) are exactly those that
stand for a point of the curve's group over the field of `P`, and adding them gives a valid point
standing for the sum. So the group laws hold of `Point.add` itself, and double-and-add computes
the sum of `k mod N` copies of a valid point, whatever its order.
-/

namespace Bitcoin

namespace Point

open WeierstrassCurve.Affine

variable {c c' : Curve} {p q r : Point} {x y : Nat}

/-- `p` is the point at infinity of `c`, or a point that `ofCoords` accepts for `c`. -/
def IsValid (c : Curve) (p : Point) : Prop :=
  p = infinity c ∨ ∃ x y, ofCoords x y c = .ok p

theorem ofCoords_eq_ok_iff :
    ofCoords x y c = .ok p ↔
      p = affine x y c ∧ x < fieldPrime ∧ y < fieldPrime ∧ onCurve c x y = true := by
  unfold ofCoords
  split_ifs with hrange hon
  · simp only [false_iff]
    rintro ⟨-, hx, hy, -⟩
    rcases hrange with h | h <;> omega
  · simp only [Except.ok.injEq, hon, and_true]
    constructor
    · rintro rfl
      exact ⟨rfl, by omega, by omega⟩
    · rintro ⟨rfl, -⟩
      rfl
  · simp only [false_iff]
    intro h
    exact hon h.2.2.2

theorem isValid_infinity_iff : (infinity c').IsValid c ↔ c' = c := by
  simp [IsValid, ofCoords_eq_ok_iff]

theorem isValid_affine_iff :
    (affine x y c').IsValid c ↔
      c' = c ∧ x < fieldPrime ∧ y < fieldPrime ∧ onCurve c x y = true := by
  simp only [IsValid, reduceCtorEq, false_or, ofCoords_eq_ok_iff, affine.injEq]
  constructor
  · rintro ⟨x, y, ⟨rfl, rfl, rfl⟩, hx, hy, hon⟩
    exact ⟨rfl, hx, hy, hon⟩
  · rintro ⟨rfl, hx, hy, hon⟩
    exact ⟨x, y, ⟨rfl, rfl, rfl⟩, hx, hy, hon⟩

instance (c : Curve) : ∀ p : Point, Decidable (p.IsValid c)
  | infinity _ => decidable_of_iff _ isValid_infinity_iff.symm
  | affine _ _ _ => decidable_of_iff _ isValid_affine_iff.symm

example : generator.IsValid Curve.secp256k1 := by decide +kernel

theorem Represents.isValid {P : c.weierstrass.Point} (h : Represents c p P) : p.IsValid c := by
  cases p with
  | infinity c' => exact isValid_infinity_iff.2 h.1
  | affine x y c' =>
      obtain ⟨hc, hx, hy, hns, -⟩ := h
      exact isValid_affine_iff.2 ⟨hc, hx, hy, Curve.onCurve_iff.2 hns.1⟩

/-- On a smooth curve a valid point stands for the group element it denotes. -/
theorem IsValid.represents (hc : c.Smooth) (hp : p.IsValid c) : Represents c p (denote c p) := by
  cases p with
  | infinity c' =>
      obtain rfl := isValid_infinity_iff.1 hp
      rw [represents_infinity_self.denote_eq]
      exact represents_infinity_self
  | affine x y c' =>
      obtain ⟨rfl, hx, hy, hon⟩ := isValid_affine_iff.1 hp
      have hns := hc.nonsingular (Curve.onCurve_iff.1 hon)
      have h : Represents c' (affine x y c') (.some _ _ hns) := ⟨rfl, hx, hy, _, rfl⟩
      rwa [h.denote_eq]

theorem isValid_iff_exists_represents (hc : c.Smooth) :
    p.IsValid c ↔ ∃ P, Represents c p P :=
  ⟨fun hp => ⟨_, hp.represents hc⟩, fun ⟨_, h⟩ => h.isValid⟩

theorem IsValid.eq_of_denote_eq (hc : c.Smooth) (hp : p.IsValid c) (hq : q.IsValid c)
    (h : denote c p = denote c q) : p = q :=
  (hp.represents hc).inj (h ▸ hq.represents hc)

theorem IsValid.add (hc : c.Smooth) (hp : p.IsValid c) (hq : q.IsValid c) :
    (p.add q).IsValid c :=
  ((hp.represents hc).add (hq.represents hc)).isValid

theorem IsValid.denote_add (hc : c.Smooth) (hp : p.IsValid c) (hq : q.IsValid c) :
    denote c (p.add q) = denote c p + denote c q :=
  ((hp.represents hc).add (hq.represents hc)).denote_eq

theorem add_comm_of_isValid (hc : c.Smooth) (hp : p.IsValid c) (hq : q.IsValid c) :
    p.add q = q.add p := by
  apply (hp.add hc hq).eq_of_denote_eq hc (hq.add hc hp)
  rw [hp.denote_add hc hq, hq.denote_add hc hp, add_comm]

theorem add_assoc_of_isValid (hc : c.Smooth) (hp : p.IsValid c) (hq : q.IsValid c)
    (hr : r.IsValid c) : (p.add q).add r = p.add (q.add r) := by
  apply ((hp.add hc hq).add hc hr).eq_of_denote_eq hc (hp.add hc (hq.add hc hr))
  rw [(hp.add hc hq).denote_add hc hr, hp.denote_add hc hq, hp.denote_add hc (hq.add hc hr),
    hq.denote_add hc hr, add_assoc]

theorem infinity_add (p : Point) : (infinity c).add p = p := rfl

theorem add_infinity_of_isValid (hp : p.IsValid c) : p.add (infinity c) = p := by
  cases p with
  | infinity c' => rw [isValid_infinity_iff.1 hp]; rfl
  | affine x y c' => rfl

/-- `(x, P - y)` cancels `(x, y)` on either side: the two share `x` and, `P` being odd, never `y`.
For `y = 0` the second is not reduced, and the sum is still infinity. -/
theorem add_reflect (hy : y < fieldPrime) :
    (affine x y c).add (affine x (fieldPrime - y) c) = infinity c ∧
      (affine x (fieldPrime - y) c).add (affine x y c) = infinity c := by
  have hodd := fieldPrime_odd
  have hne : y ≠ fieldPrime - y := by omega
  constructor
  · simp only [Point.add, ne_eq, hne, not_false_eq_true, and_self, if_true]
  · simp only [Point.add, ne_eq, hne.symm, not_false_eq_true, and_self, if_true]

/-- The group law on valid points. On a smooth curve the valid points are those that stand for a
point of the group, the sum of valid points is valid and stands for the sum in the group, and so
addition is commutative and associative, infinity is its identity and `(x, P - y)` cancels
`(x, y)`. -/
theorem add_group_law (hc : c.Smooth) :
    (∀ p : Point, p.IsValid c ↔ ∃ P, Represents c p P) ∧
    (∀ p q : Point, p.IsValid c → q.IsValid c → (p.add q).IsValid c) ∧
    (∀ (p q : Point) (P Q : c.weierstrass.Point),
      Represents c p P → Represents c q Q → Represents c (p.add q) (P + Q)) ∧
    (∀ p q : Point, p.IsValid c → q.IsValid c → p.add q = q.add p) ∧
    (∀ p q r : Point, p.IsValid c → q.IsValid c → r.IsValid c →
      (p.add q).add r = p.add (q.add r)) ∧
    (∀ p : Point, p.IsValid c → (infinity c).add p = p ∧ p.add (infinity c) = p) ∧
    (∀ x y : Nat, (affine x y c).IsValid c →
      (affine x y c).add (affine x (fieldPrime - y) c) = infinity c ∧
        (affine x (fieldPrime - y) c).add (affine x y c) = infinity c) :=
  ⟨fun _ => isValid_iff_exists_represents hc,
    fun _ _ hp hq => hp.add hc hq,
    fun _ _ _ _ hp hq => hp.add hq,
    fun _ _ hp hq => add_comm_of_isValid hc hp hq,
    fun _ _ _ hp hq hr => add_assoc_of_isValid hc hp hq hr,
    fun _ hp => ⟨infinity_add _, add_infinity_of_isValid hp⟩,
    fun _ _ hv => add_reflect (isValid_affine_iff.1 hv).2.2.1⟩

theorem secp256k1_add_group_law :
    Curve.secp256k1.Smooth ∧
    (∀ p : Point, p.IsValid Curve.secp256k1 ↔ ∃ P, Represents Curve.secp256k1 p P) ∧
    (∀ p q : Point, p.IsValid Curve.secp256k1 → q.IsValid Curve.secp256k1 →
      (p.add q).IsValid Curve.secp256k1) ∧
    (∀ (p q : Point) (P Q : Curve.secp256k1.weierstrass.Point),
      Represents Curve.secp256k1 p P → Represents Curve.secp256k1 q Q →
      Represents Curve.secp256k1 (p.add q) (P + Q)) ∧
    (∀ p q : Point, p.IsValid Curve.secp256k1 → q.IsValid Curve.secp256k1 →
      p.add q = q.add p) ∧
    (∀ p q r : Point, p.IsValid Curve.secp256k1 → q.IsValid Curve.secp256k1 →
      r.IsValid Curve.secp256k1 → (p.add q).add r = p.add (q.add r)) ∧
    (∀ p : Point, p.IsValid Curve.secp256k1 →
      (infinity Curve.secp256k1).add p = p ∧ p.add (infinity Curve.secp256k1) = p) ∧
    (∀ x y : Nat, (affine x y Curve.secp256k1).IsValid Curve.secp256k1 →
      (affine x y Curve.secp256k1).add (affine x (fieldPrime - y) Curve.secp256k1) =
          infinity Curve.secp256k1 ∧
        (affine x (fieldPrime - y) Curve.secp256k1).add (affine x y Curve.secp256k1) =
          infinity Curve.secp256k1) :=
  ⟨Curve.secp256k1_smooth, add_group_law Curve.secp256k1_smooth⟩

/-! ## Scalar multiples as repeated sums -/

/-- The sum of `k` copies of `p` under `Point.add`, added one at a time; no copies make the
point at infinity of `p`'s curve. -/
def repeatAdd (p : Point) : Nat → Point
  | 0 => infinity p.curve
  | k + 1 => (repeatAdd p k).add p

theorem Represents.repeatAdd {P : c.weierstrass.Point} (hp : Represents c p P) (k : Nat) :
    Represents c (p.repeatAdd k) (k • P) := by
  induction k with
  | zero =>
      rw [Point.repeatAdd, hp.curve_eq, zero_nsmul]
      exact represents_infinity_self
  | succ k ih =>
      rw [Point.repeatAdd, succ_nsmul]
      exact ih.add hp

/-- Double-and-add computes the sum of `k mod N` copies of the point: on any smooth curve, and
whatever the order of the point, since both sides stand for `(k mod N) • P` in the group. -/
theorem smul_eq_repeatAdd (hp : p = infinity c ∨ c.Smooth ∧ p.IsValid c) (k : Nat) :
    p.smul k = p.repeatAdd (k % groupOrder) := by
  obtain ⟨P, hrep⟩ : ∃ P, Represents c p P := by
    rcases hp with rfl | ⟨hc, hvalid⟩
    · exact ⟨0, represents_infinity_self⟩
    · exact ⟨_, hvalid.represents hc⟩
  exact (hrep.smul k).inj (hrep.repeatAdd _)

/-- On the smooth curve `y² = x³ + x` the point `(0, 0)` has order two, not `N`. -/
theorem smul_eq_repeatAdd_order_two :
    (affine 0 0 ⟨1, 0⟩ = infinity ⟨1, 0⟩ ∨
        Curve.Smooth ⟨1, 0⟩ ∧ (affine 0 0 ⟨1, 0⟩).IsValid ⟨1, 0⟩) ∧
      (affine 0 0 ⟨1, 0⟩).smul 3 = (affine 0 0 ⟨1, 0⟩).repeatAdd (3 % groupOrder) := by
  have hp : affine 0 0 ⟨1, 0⟩ = infinity ⟨1, 0⟩ ∨
      Curve.Smooth ⟨1, 0⟩ ∧ (affine 0 0 ⟨1, 0⟩).IsValid ⟨1, 0⟩ :=
    .inr ⟨by decide, by decide +kernel⟩
  exact ⟨hp, smul_eq_repeatAdd hp 3⟩

end Point

end Bitcoin
