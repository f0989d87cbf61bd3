import Bitcoin.Proofs.Curve.Scalar
import Bitcoin.Key

/-! # ECDSA signatures verify

A nonce `k` in `[1, N)` gives a nonce point `k·G` that is never infinity, since `G` has prime
order `N`. The signature `(r, s)` has `s ≡ (z + r·d)/k`, so the verifier's `u·G + v·(d·G)` is
`((z + r·d)/s)·G = k·G`; after the low-s flip `s ↦ N - s` it is `-(k·G)`, which has the same x
coordinate. Scalars are compared in `ZMod N`, where the multiples of `G` live.
-/

namespace Bitcoin

open Point

theorem two_lt_groupOrder : 2 < groupOrder := by decide

theorem nsmul_generatorPoint_eq_iff {n m : Nat} :
    n • generatorPoint = m • generatorPoint ↔ (n : ZMod groupOrder) = m := by
  rw [nsmul_eq_nsmul_iff_modEq, addOrderOf_generatorPoint, ZMod.natCast_eq_natCast_iff]

theorem represents_smul_generator (k : Nat) :
    Represents Curve.secp256k1 (generator.smul k) ((k % groupOrder) • generatorPoint) :=
  represents_generator.smul k

theorem exists_x?_smul_generator {k : Nat} (hk : isValidScalar k = true) :
    ∃ x, (generator.smul k).x? = some x := by
  simp only [isValidScalar, Bool.and_eq_true, decide_eq_true_eq] at hk
  cases hx : (generator.smul k).x? with
  | some x => exact ⟨x, rfl⟩
  | none =>
      have hzero := (represents_smul_generator k).x?_eq_none_iff.1 hx
      rw [Nat.mod_eq_of_lt hk.2, ← zero_nsmul generatorPoint, nsmul_generatorPoint_eq_iff,
        Nat.cast_zero, ZMod.natCast_eq_zero_iff] at hzero
      exact absurd (Nat.le_of_dvd (by omega) hzero) (by omega)

namespace PrivateKey

theorem represents_publicKey (key : PrivateKey) :
    Represents Curve.secp256k1 key.publicKey (key.secret • generatorPoint) := by
  have hvalid := key.valid
  simp only [isValidScalar, Bool.and_eq_true, decide_eq_true_eq] at hvalid
  have h := represents_smul_generator key.secret
  rwa [Nat.mod_eq_of_lt hvalid.2] at h

theorem secret_cast_ne_zero (key : PrivateKey) : (key.secret : ZMod groupOrder) ≠ 0 := by
  have hvalid := key.valid
  simp only [isValidScalar, Bool.and_eq_true, decide_eq_true_eq] at hvalid
  rw [Ne, ZMod.natCast_eq_zero_iff]
  exact fun h => absurd (Nat.le_of_dvd (by omega) h) (by omega)

theorem signWithNonce_of_valid (key : PrivateKey) (z : Nat) {k x : Nat}
    (hk : isValidScalar k = true) (hx : (generator.smul k).x? = some x) :
    key.signWithNonce z k =
      let r := x % groupOrder
      let s := Field.mul (Field.add z (Field.mul r key.secret groupOrder) groupOrder)
        (Field.inv k groupOrder) groupOrder
      if r = 0 then .error (.invalidPrivateKey "nonce produced r = 0")
      else if s = 0 then .error (.invalidPrivateKey "nonce produced s = 0")
      else .ok ⟨r, if s > halfOrder then groupOrder - s else s⟩ := by
  simp only [signWithNonce, hk, hx, Bool.not_true, Bool.false_eq_true, if_false, pure_bind,
    Field.normalize]
  split_ifs <;> rfl

theorem nonce_eq_of_sign (key : PrivateKey) (z r : Nat) {k : Nat} (hk : isValidScalar k = true)
    (hs : Field.mul (Field.add z (Field.mul r key.secret groupOrder) groupOrder)
      (Field.inv k groupOrder) groupOrder ≠ 0) :
    ((z : ZMod groupOrder) + r * key.secret) *
      ((Field.mul (Field.add z (Field.mul r key.secret groupOrder) groupOrder)
        (Field.inv k groupOrder) groupOrder : Nat) : ZMod groupOrder)⁻¹ = k := by
  simp only [isValidScalar, Bool.and_eq_true, decide_eq_true_eq] at hk
  have hk0 : (k : ZMod groupOrder) ≠ 0 := by
    rw [Ne, ZMod.natCast_eq_zero_iff]
    exact fun h => absurd (Nat.le_of_dvd (by omega) h) (by omega)
  have hcast : ((Field.mul (Field.add z (Field.mul r key.secret groupOrder) groupOrder)
      (Field.inv k groupOrder) groupOrder : Nat) : ZMod groupOrder) =
      ((z : ZMod groupOrder) + r * key.secret) * (k : ZMod groupOrder)⁻¹ := by
    rw [Field.cast_mul, Field.cast_add, Field.cast_mul,
      Field.cast_inv _ Primality.groupOrder_prime two_lt_groupOrder]
  -- `z + r·d` is not zero, or `s` would be
  have hsum : (z : ZMod groupOrder) + r * key.secret ≠ 0 := by
    intro h0
    apply hs
    apply Field.eq_of_cast_eq (Field.mul_lt _ _ (by decide)) (by decide)
    rw [hcast, h0, zero_mul, Nat.cast_zero]
  rw [hcast, mul_inv, inv_inv, ← mul_assoc, mul_inv_cancel₀ hsum, one_mul]

/-- The public key accepts `(x mod N, s)` when `(z + r·d)/s` is `k` or `-k` for a nonce point
`k·G` with x coordinate `x`. -/
theorem verify_of_nonce (key : PrivateKey) (z : Nat) {k x s : Nat}
    (hk : isValidScalar k = true) (hx : (generator.smul k).x? = some x)
    (hr : x % groupOrder ≠ 0) (hs : s ≠ 0) (hsN : s < groupOrder)
    (hscalar : ((z : ZMod groupOrder) + (x % groupOrder : Nat) * key.secret) *
        (s : ZMod groupOrder)⁻¹ = k ∨
      ((z : ZMod groupOrder) + (x % groupOrder : Nat) * key.secret) *
        (s : ZMod groupOrder)⁻¹ = -k) :
    key.publicKey.verify z ⟨x % groupOrder, s⟩ = true := by
  have hkN : k % groupOrder = k := by
    simp only [isValidScalar, Bool.and_eq_true, decide_eq_true_eq] at hk
    exact Nat.mod_eq_of_lt hk.2
  have hK := represents_smul_generator k
  rw [hkN] at hK
  -- the verifier's point `u·G + v·(d·G)` stands for `(u + v·d)·G`
  have hT := (represents_smul_generator (Field.mul z (Field.inv s groupOrder) groupOrder)).add
    (key.represents_publicKey.smul (Field.mul (x % groupOrder) (Field.inv s groupOrder) groupOrder))
  rw [← mul_nsmul', ← add_nsmul] at hT
  have hcast : (((Field.mul z (Field.inv s groupOrder) groupOrder % groupOrder +
      Field.mul (x % groupOrder) (Field.inv s groupOrder) groupOrder % groupOrder * key.secret :
        Nat)) : ZMod groupOrder) =
      ((z : ZMod groupOrder) + (x % groupOrder : Nat) * key.secret) * (s : ZMod groupOrder)⁻¹ := by
    rw [Nat.cast_add, Nat.cast_mul, ZMod.natCast_mod, ZMod.natCast_mod, Field.cast_mul,
      Field.cast_mul, Field.cast_inv _ Primality.groupOrder_prime two_lt_groupOrder]
    ring
  have hTx : ((generator.smul (Field.mul z (Field.inv s groupOrder) groupOrder)).add
      (key.publicKey.smul (Field.mul (x % groupOrder) (Field.inv s groupOrder) groupOrder))).x? =
      some x := by
    rcases hscalar with hplus | hminus
    · have hpt : (Field.mul z (Field.inv s groupOrder) groupOrder % groupOrder +
          Field.mul (x % groupOrder) (Field.inv s groupOrder) groupOrder % groupOrder *
            key.secret) • generatorPoint = k • generatorPoint := by
        rw [nsmul_generatorPoint_eq_iff, hcast, hplus]
      rw [hpt] at hT
      rw [hT.inj hK, hx]
    · -- the low-s flip negates the point, which keeps its x coordinate
      have hzero : (Field.mul z (Field.inv s groupOrder) groupOrder % groupOrder +
          Field.mul (x % groupOrder) (Field.inv s groupOrder) groupOrder % groupOrder *
            key.secret + k) • generatorPoint = 0 • generatorPoint := by
        rw [nsmul_generatorPoint_eq_iff, Nat.cast_add, hcast, hminus, Nat.cast_zero,
          neg_add_cancel]
      rw [add_nsmul, zero_nsmul] at hzero
      rw [eq_neg_of_add_eq_zero_left hzero] at hT
      rw [← hK.x?_neg hT, hx]
  cases hq : key.publicKey with
  | infinity c =>
      have hQ := key.represents_publicKey
      rw [hq, represents_infinity, ← zero_nsmul generatorPoint, nsmul_generatorPoint_eq_iff,
        Nat.cast_zero] at hQ
      exact absurd hQ.2 key.secret_cast_ne_zero
  | affine qx qy c =>
      rw [hq] at hTx
      have hrN : x % groupOrder < groupOrder := Nat.mod_lt _ (by decide)
      simp only [Point.verify, hTx, beq_self_eq_true]
      rw [if_neg (by omega)]

theorem signWithNonce_of_invalid (key : PrivateKey) (z : Nat) {k : Nat}
    (hk : isValidScalar k = false) :
    key.signWithNonce z k = .error (.invalidPrivateKey "nonce outside [1, N-1]") := by
  simp only [signWithNonce, hk, Bool.not_false, if_true]
  rfl

theorem isValidScalar_of_signWithNonce {key : PrivateKey} {z k : Nat} {sig : Signature}
    (h : key.signWithNonce z k = .ok sig) : isValidScalar k = true := by
  cases hk : isValidScalar k with
  | true => rfl
  | false =>
      rw [signWithNonce_of_invalid key z hk] at h
      exact nomatch h

theorem groupOrder_eq_two_mul_halfOrder_add_one : groupOrder = 2 * halfOrder + 1 := by decide

/-- Every signature made with a nonce has `r` and `s` in `[1, N)`, a low `s`, and verifies. -/
theorem signWithNonce_ok_spec (key : PrivateKey) (z : Nat) {k : Nat} {sig : Signature}
    (h : key.signWithNonce z k = .ok sig) :
    1 ≤ sig.r ∧ sig.r < groupOrder ∧ 1 ≤ sig.s ∧ sig.s ≤ halfOrder ∧
      key.publicKey.verify z sig = true := by
  have hk := isValidScalar_of_signWithNonce h
  obtain ⟨x, hx⟩ := exists_x?_smul_generator hk
  have hnonce := key.nonce_eq_of_sign z (x % groupOrder) hk
  rw [signWithNonce_of_valid key z hk hx] at h
  simp only at h
  generalize hsdef : Field.mul (Field.add z (Field.mul (x % groupOrder) key.secret groupOrder)
    groupOrder) (Field.inv k groupOrder) groupOrder = s at h hnonce
  have hsN : s < groupOrder := hsdef ▸ Field.mul_lt _ _ (by decide)
  have hrN : x % groupOrder < groupOrder := Nat.mod_lt _ (by decide)
  have hhalf := groupOrder_eq_two_mul_halfOrder_add_one
  split_ifs at h with hr hs hhigh
  all_goals cases h
  all_goals dsimp only
  · -- the high `s` is flipped to `N - s`, which negates the recovered scalar
    refine ⟨by omega, hrN, by omega, by omega, key.verify_of_nonce z hk hx hr (by omega)
      (by omega) (Or.inr ?_)⟩
    rw [Nat.cast_sub hsN.le, ZMod.natCast_self, zero_sub, inv_neg, mul_neg, hnonce hs]
  · exact ⟨by omega, hrN, by omega, by omega,
      key.verify_of_nonce z hk hx hr hs hsN (Or.inl (hnonce hs))⟩

/-- Signing never finds its nonce point at infinity, and every signature it returns, with a given
nonce or with the deterministic one, has `r` and `s` in `[1, N)`, a low `s`, and verifies against
the public key. -/
theorem signatures_verify [Digests] (key : PrivateKey) (z k : Nat) :
    key.signWithNonce z k ≠ .error (.invalidPrivateKey "nonce produced infinity") ∧
    (∀ sig, key.signWithNonce z k = .ok sig →
      1 ≤ sig.r ∧ sig.r < groupOrder ∧ 1 ≤ sig.s ∧ sig.s ≤ halfOrder ∧
        key.publicKey.verify z sig = true) ∧
    (∀ sig, key.sign z = .ok sig →
      1 ≤ sig.r ∧ sig.r < groupOrder ∧ 1 ≤ sig.s ∧ sig.s ≤ halfOrder ∧
        key.publicKey.verify z sig = true) := by
  refine ⟨?_, fun sig h => key.signWithNonce_ok_spec z h, fun sig h => key.signWithNonce_ok_spec z h⟩
  cases hk : isValidScalar k with
  | false => simp [signWithNonce_of_invalid key z hk]
  | true =>
      obtain ⟨x, hx⟩ := exists_x?_smul_generator hk
      rw [signWithNonce_of_valid key z hk hx]
      simp only
      split_ifs <;> simp

end PrivateKey

end Bitcoin
