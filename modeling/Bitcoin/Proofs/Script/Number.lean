import Bitcoin.Script.Num
import Bitcoin.Proofs.Bytes

/-! # Script numbers read back

Decoding ors up to eight little-endian bytes into a 64-bit magnitude and negates it on the sign
bit; on at most eight bytes this is exact (`toInt_decode`). Every 64-bit number but `-2^63`
encodes in at most eight bytes, so decoding inverts encoding there, and `-2^63` takes nine bytes
of which the eight read wrap back to it. The encoder writes the shortest form, and truth is being
a nonzero number.
-/

namespace Bitcoin

theorem Bytes.toNatLE_cons (b : UInt8) (bs : Bytes) :
    Bytes.toNatLE (b :: bs) = b.toNat + 256 * Bytes.toNatLE bs := rfl

theorem Bytes.toNatLE_append (xs ys : Bytes) :
    Bytes.toNatLE (xs ++ ys) = Bytes.toNatLE xs + 256 ^ xs.length * Bytes.toNatLE ys := by
  induction xs with
  | nil => simp [Bytes.toNatLE]
  | cons x xs ih =>
      rw [List.cons_append, Bytes.toNatLE_cons, Bytes.toNatLE_cons, ih, List.length_cons,
        Nat.pow_succ]
      ring

theorem Bytes.toNatLE_singleton (b : UInt8) : Bytes.toNatLE [b] = b.toNat := by
  simp [Bytes.toNatLE]

theorem Bytes.toNatLE_eq_zero_iff (bs : Bytes) : Bytes.toNatLE bs = 0 ↔ ∀ b ∈ bs, b = 0 := by
  induction bs with
  | nil => simp [Bytes.toNatLE]
  | cons b bs ih =>
      rw [Bytes.toNatLE_cons, List.forall_mem_cons, ← ih, ← UInt8.toNat_inj, UInt8.toNat_zero]
      omega

namespace ScriptNum

/-! ## Decoding -/

/-- One step of `magnitude`: the byte at index `i`, its sign bit cleared when `i` is the index of
the element's last byte, or'd into place. -/
def orByte (last : Nat) (acc : UInt64) : UInt8 × Nat → UInt64
  | (b, i) =>
    let b := if i = last then b &&& 0x7f else b
    acc ||| (b.toUInt64 <<< (8 * i).toUInt64)

theorem magnitude_eq (e : Bytes) :
    magnitude e = (e.take 8).zipIdx.foldl (orByte (e.length - 1)) 0 := rfl

theorem toNat_or_shift (acc : UInt64) (b : UInt8) {k : Nat} (hk : k < 8)
    (hacc : acc.toNat < 256 ^ k) :
    (acc ||| (b.toUInt64 <<< (8 * k).toUInt64)).toNat = acc.toNat + 256 ^ k * b.toNat := by
  have hb := b.toNat_lt
  have hpow : (256 : Nat) ^ k = 2 ^ (8 * k) := by rw [Nat.pow_mul]
  have hfit : 2 ^ (8 * k) * b.toNat < 2 ^ 64 := by
    calc 2 ^ (8 * k) * b.toNat < 2 ^ (8 * k) * 2 ^ 8 :=
          Nat.mul_lt_mul_of_pos_left (by omega) (Nat.two_pow_pos _)
      _ = 2 ^ (8 * k + 8) := by rw [Nat.pow_add]
      _ ≤ 2 ^ 64 := Nat.pow_le_pow_right (by decide) (by omega)
  rw [UInt64.toNat_or, UInt64.toNat_shiftLeft, UInt8.toNat_toUInt64, Nat.toUInt64_eq,
    UInt64.toNat_ofNat', Nat.mod_eq_of_lt (show 8 * k < 2 ^ 64 by omega),
    Nat.mod_eq_of_lt (show 8 * k < 64 by omega), Nat.shiftLeft_eq, Nat.mul_comm,
    Nat.mod_eq_of_lt hfit, Nat.or_comm, ← Nat.two_pow_add_eq_or_of_lt (hpow ▸ hacc), hpow]
  omega

theorem toNat_orByte (last : Nat) (acc : UInt64) (b : UInt8) {k : Nat} (hk : k < 8)
    (hacc : acc.toNat < 256 ^ k) :
    (orByte last acc (b, k)).toNat =
      acc.toNat + 256 ^ k * (if k = last then b &&& 0x7f else b).toNat :=
  toNat_or_shift acc _ hk hacc

theorem toNat_foldl_orByte (last : Nat) :
    ∀ (bs : Bytes) (k : Nat) (acc : UInt64), k + bs.length ≤ 8 → k + bs.length ≤ last →
      acc.toNat < 256 ^ k →
      ((bs.zipIdx k).foldl (orByte last) acc).toNat = acc.toNat + 256 ^ k * Bytes.toNatLE bs
  | [], k, acc, _, _, _ => by simp [Bytes.toNatLE]
  | b :: bs, k, acc, h8, hlast, hacc => by
    have hstep := toNat_orByte last acc b (k := k) (by simp at h8; omega) hacc
    rw [if_neg (by simp at hlast; omega)] at hstep
    have hnext : (orByte last acc (b, k)).toNat < 256 ^ (k + 1) := by
      have := b.toNat_lt
      rw [hstep, Nat.pow_succ]
      nlinarith
    rw [List.zipIdx_cons, List.foldl_cons,
      toNat_foldl_orByte last bs (k + 1) _ (by simp at h8; omega) (by simp at hlast; omega) hnext,
      hstep, Bytes.toNatLE_cons, Nat.pow_succ]
    ring

theorem toNat_magnitude_append (init : Bytes) (last : UInt8) (h : init.length < 8) :
    (magnitude (init ++ [last])).toNat =
      Bytes.toNatLE init + 256 ^ init.length * (last &&& 0x7f).toNat := by
  have hinit := toNat_foldl_orByte init.length init 0 0 (by omega) (by omega) (by simp)
  rw [magnitude_eq, List.take_of_length_le (by simp; omega), List.zipIdx_append, List.foldl_append,
    List.length_append, List.length_singleton, Nat.add_sub_cancel, Nat.zero_add,
    List.zipIdx_singleton, List.foldl_cons, List.foldl_nil]
  rw [toNat_orByte _ _ _ h (by simpa [hinit] using toNatLE_lt init), if_pos rfl, hinit]
  simp

theorem toNat_magnitude_of_lt {e : Bytes} (h : 8 < e.length) :
    (magnitude e).toNat = Bytes.toNatLE (e.take 8) := by
  have := toNat_foldl_orByte (e.length - 1) (e.take 8) 0 0 (by simp) (by simp; omega)
    (by simp)
  rw [magnitude_eq, this]
  simp

/-- The number a script element stands for, read in full: the little-endian magnitude with the
sign bit of the last byte cleared, negated when that bit is set. -/
def value (e : Bytes) : Int :=
  match e.getLast? with
  | none => 0
  | some last =>
    let m := Bytes.toNatLE e.dropLast + 256 ^ e.dropLast.length * (last &&& 0x7f).toNat
    if last &&& 0x80 ≠ 0 then -(m : Int) else m

theorem value_nil : value [] = 0 := rfl

theorem value_append (init : Bytes) (last : UInt8) :
    value (init ++ [last]) =
      let m := Bytes.toNatLE init + 256 ^ init.length * (last &&& 0x7f).toNat
      if last &&& 0x80 ≠ 0 then -(m : Int) else m := by
  simp [value]

theorem toNat_and_7f_lt (b : UInt8) : (b &&& 0x7f).toNat < 128 := by
  rw [UInt8.toNat_and]
  exact Nat.lt_of_le_of_lt Nat.and_le_right (by decide)

theorem magnitudeOf_lt (init : Bytes) (last : UInt8) (h : init.length < 8) :
    Bytes.toNatLE init + 256 ^ init.length * (last &&& 0x7f).toNat < 2 ^ 63 := by
  have hinit := toNatLE_lt init
  have hlast := toNat_and_7f_lt last
  have hpow : 256 ^ init.length * 128 ≤ 2 ^ 63 := by
    calc 256 ^ init.length * 128 ≤ 256 ^ 7 * 128 :=
          Nat.mul_le_mul_right _ (Nat.pow_le_pow_right (by decide) (by omega))
      _ = 2 ^ 63 := by norm_num
  nlinarith

theorem toInt_toInt64_of_lt {x : UInt64} (h : x.toNat < 2 ^ 63) : x.toInt64.toInt = x.toNat := by
  have hx : x = UInt64.ofNat x.toNat := UInt64.ofNat_toNat.symm
  generalize x.toNat = n at hx h ⊢
  subst hx
  rw [UInt64.toInt64_ofNat', Int64.toInt_ofNat']
  exact Int.bmod_eq_of_le (by simp) (by simp; omega)

theorem toInt_decode {e : Bytes} (h : e.length ≤ 8) : (decode e).toInt = value e := by
  rcases List.eq_nil_or_concat' e with rfl | ⟨init, last, rfl⟩
  · rfl
  simp only [List.length_append, List.length_singleton] at h
  have hmag := toNat_magnitude_append init last (by omega)
  have hlt := magnitudeOf_lt init last (by omega)
  rw [value_append, decode, List.getLast?_concat]
  dsimp only
  generalize Bytes.toNatLE init + 256 ^ init.length * (last &&& 0x7f).toNat = m at hmag hlt ⊢
  have hm : (magnitude (init ++ [last])).toInt64.toInt = m := by
    rw [toInt_toInt64_of_lt (by omega), hmag]
  split_ifs with hsign
  · rw [Int64.toInt_neg, hm]
    exact Int.bmod_eq_of_le (by norm_num; omega) (by norm_num; omega)
  · exact hm

theorem toInt_decode_mem {e : Bytes} (h : e.length ≤ 4) :
    -(2 ^ 31 - 1) ≤ (decode e).toInt ∧ (decode e).toInt ≤ 2 ^ 31 - 1 := by
  rw [toInt_decode (by omega)]
  rcases List.eq_nil_or_concat' e with rfl | ⟨init, last, rfl⟩
  · simp [value_nil]
  simp only [List.length_append, List.length_singleton] at h
  have hinit := toNatLE_lt init
  have hlast := toNat_and_7f_lt last
  have hpow : 256 ^ init.length * 128 ≤ 2 ^ 31 := by
    calc 256 ^ init.length * 128 ≤ 256 ^ 3 * 128 :=
          Nat.mul_le_mul_right _ (Nat.pow_le_pow_right (by decide) (by omega))
      _ = 2 ^ 31 := by norm_num
  have hm : Bytes.toNatLE init + 256 ^ init.length * (last &&& 0x7f).toNat < 2 ^ 31 := by
    nlinarith
  rw [value_append]
  dsimp only
  split_ifs <;> omega

/-! ## Encoding -/

theorem toNatLE_magnitudeBytes (n : Nat) : Bytes.toNatLE (magnitudeBytes n) = n := by
  fun_induction magnitudeBytes n with
  | case1 => rfl
  | case2 n hn ih =>
      rw [Bytes.toNatLE_cons, ih, Nat.toUInt8_eq, UInt8.toNat_ofNat']
      omega

theorem magnitudeBytes_eq_append {n : Nat} (hn : n ≠ 0) :
    ∃ init last, magnitudeBytes n = init ++ [last] ∧ last ≠ 0 := by
  induction n using Nat.strongRecOn with
  | ind n ih =>
    rw [magnitudeBytes, if_neg hn]
    by_cases hq : n / 256 = 0
    · refine ⟨[], n.toUInt8, by rw [hq, magnitudeBytes, if_pos rfl]; rfl, ?_⟩
      intro h0
      have := congrArg UInt8.toNat h0
      rw [Nat.toUInt8_eq, UInt8.toNat_ofNat', Nat.mod_eq_of_lt (by omega)] at this
      exact hn this
    · obtain ⟨init, last, heq, hlast⟩ := ih (n / 256) (by omega) hq
      exact ⟨n.toUInt8 :: init, last, by rw [heq]; rfl, hlast⟩

theorem length_magnitudeBytes_le {n k : Nat} (h : n < 256 ^ k) : (magnitudeBytes n).length ≤ k := by
  induction k generalizing n with
  | zero => rw [show n = 0 by simpa using h, magnitudeBytes, if_pos rfl]; rfl
  | succ k ih =>
      rw [magnitudeBytes]
      split
      · exact Nat.zero_le _
      · rw [List.length_cons]
        have := ih (n := n / 256) (by rw [Nat.pow_succ] at h; omega)
        omega

theorem withSign_append (negative : Bool) (init : Bytes) (last : UInt8) :
    withSign negative (init ++ [last]) = init ++ withSign negative [last] := by
  induction init with
  | nil => rfl
  | cons b init ih =>
      obtain ⟨c, cs, hc⟩ : ∃ c cs, init ++ [last] = c :: cs :=
        List.exists_cons_of_ne_nil (by simp)
      have hstep : withSign negative (b :: c :: cs) = b :: withSign negative (c :: cs) := rfl
      rw [List.cons_append, hc, hstep, ← hc, ih, List.cons_append]

theorem natAbs_toInt_le (n : Int64) : n.toInt.natAbs ≤ 2 ^ 63 := by
  have := n.le_toInt
  have := n.toInt_lt
  omega

theorem eq_minValue_of_natAbs {n : Int64} (h : n.toInt.natAbs = 2 ^ 63) : n = Int64.minValue := by
  have := n.toInt_lt
  apply Int64.toInt_inj.1
  rw [Int64.toInt_minValue]
  omega

theorem encode_eq_of_ne_zero {n : Int64} (hn : n ≠ 0) :
    ∃ init last, last ≠ 0 ∧ init.length < 8 ∧
      Bytes.toNatLE init + 256 ^ init.length * last.toNat = n.toInt.natAbs ∧
      encode n = init ++ withSign (decide (n < 0)) [last] := by
  have ha : n.toInt.natAbs ≠ 0 := by
    intro h0
    exact hn (Int64.toInt_inj.1 (by simpa using h0))
  obtain ⟨init, last, heq, hlast⟩ := magnitudeBytes_eq_append ha
  have hval := toNatLE_magnitudeBytes n.toInt.natAbs
  have hlen := length_magnitudeBytes_le (n := n.toInt.natAbs) (k := 8)
    (by have := natAbs_toInt_le n; omega)
  rw [heq, Bytes.toNatLE_append, Bytes.toNatLE_singleton] at hval
  rw [heq, List.length_append, List.length_singleton] at hlen
  exact ⟨init, last, hlast, by omega, hval, by rw [encode, heq, withSign_append]⟩

theorem sign_natAbs (n : Int64) {b : Bool} (hb : b = decide (n < 0)) :
    (if b then -(n.toInt.natAbs : Int) else n.toInt.natAbs) = n.toInt := by
  subst hb
  split_ifs with h
  · have hneg : n.toInt < 0 := by simpa [Int64.lt_iff_toInt_lt] using h
    rw [Int.ofNat_natAbs_of_nonpos hneg.le, neg_neg]
  · have hpos : 0 ≤ n.toInt := by simpa [Int64.lt_iff_toInt_lt] using h
    exact Int.natAbs_of_nonneg hpos

theorem encode_zero : encode 0 = [] := by
  rw [encode, show (0 : Int64).toInt.natAbs = 0 by decide, magnitudeBytes, if_pos rfl]
  rfl

theorem encode_one : encode 1 = [1] := by
  rw [encode, show (1 : Int64).toInt.natAbs = 1 by decide, magnitudeBytes, if_neg one_ne_zero,
    Nat.div_eq_of_lt (by decide), magnitudeBytes, if_pos rfl]
  rfl

section Bytes

-- the byte facts below are checked on all 256 bytes
set_option maxRecDepth 4000

theorem or_sign_and_7f : ∀ b : UInt8, b &&& 0x80 = 0 → (b ||| 0x80) &&& 0x7f = b := by decide

theorem and_7f_of_and_80 : ∀ b : UInt8, b &&& 0x80 = 0 → b &&& 0x7f = b := by decide

theorem or_sign_and_80 : ∀ b : UInt8, (b ||| 0x80) &&& 0x80 ≠ 0 := by decide

theorem le_toNat_of_and_80 : ∀ b : UInt8, b &&& 0x80 ≠ 0 → 128 ≤ b.toNat := by decide

end Bytes

theorem sign_byte_and_7f (negative : Bool) :
    (if negative then 0x80 else 0 : UInt8) &&& 0x7f = 0 := by
  cases negative <;> decide

theorem sign_byte_and_80 (negative : Bool) :
    ((if negative then 0x80 else 0 : UInt8) &&& 0x80 ≠ 0) = negative := by
  cases negative <;> decide

theorem value_withSign (init : Bytes) (last : UInt8) (negative : Bool) :
    value (init ++ withSign negative [last]) =
      let m := Bytes.toNatLE init + 256 ^ init.length * last.toNat
      if negative then -(m : Int) else m := by
  by_cases htop : last &&& 0x80 = 0
  · have hsign : withSign negative [last] = [if negative then last ||| 0x80 else last] := by
      simp only [withSign, htop, ne_eq, not_true_eq_false, if_false]
      split_ifs <;> rfl
    have hlow : (if negative then last ||| 0x80 else last) &&& 0x7f = last := by
      split_ifs
      · exact or_sign_and_7f last htop
      · exact and_7f_of_and_80 last htop
    have hhigh : ((if negative then last ||| 0x80 else last) &&& 0x80 ≠ 0) = negative := by
      split_ifs with hneg
      · simpa [hneg] using or_sign_and_80 last
      · simpa [hneg] using htop
    rw [hsign, value_append]
    dsimp only
    rw [hlow]
    simp only [hhigh]
  · have hsign : withSign negative [last] = [last, if negative then 0x80 else 0] := by
      simp only [withSign, htop, ne_eq, not_false_eq_true, if_true]
    rw [hsign, show init ++ [last, if negative then 0x80 else 0] =
      (init ++ [last]) ++ [if negative then 0x80 else 0] by simp, value_append]
    dsimp only
    rw [sign_byte_and_7f, Bytes.toNatLE_append, Bytes.toNatLE_singleton]
    simp only [sign_byte_and_80, UInt8.toNat_zero, Nat.mul_zero, Nat.add_zero]

theorem length_withSign (negative : Bool) (last : UInt8) :
    (withSign negative [last]).length = if last &&& 0x80 = 0 then 1 else 2 := by
  by_cases htop : last &&& 0x80 = 0
  · simp only [withSign, htop, ne_eq, not_true_eq_false, if_false, if_true]
    split_ifs <;> rfl
  · simp only [withSign, htop, ne_eq, not_false_eq_true, if_true, if_false]
    rfl

theorem value_encode {n : Int64} (h : n ≠ Int64.minValue) :
    (encode n).length ≤ 8 ∧ value (encode n) = n.toInt := by
  by_cases hn : n = 0
  · subst hn
    simp [encode_zero, value_nil]
  obtain ⟨init, last, hlast, hlen, hval, heq⟩ := encode_eq_of_ne_zero hn
  rw [heq, value_withSign]
  refine ⟨?_, by dsimp only; rw [hval]; exact sign_natAbs n rfl⟩
  rw [List.length_append, length_withSign]
  split_ifs with htop
  · omega
  · -- a sign byte of its own comes only after a magnitude of at most seven bytes, as eight
    -- bytes with the top bit set would exceed `2^63 - 1`
    have hbig : 256 ^ 7 * 128 ≤ n.toInt.natAbs → False := fun hbig =>
      h (eq_minValue_of_natAbs (le_antisymm (natAbs_toInt_le n) (by norm_num at hbig ⊢; omega)))
    by_contra h7
    have hL : init.length = 7 := by omega
    have := le_toNat_of_and_80 last htop
    apply hbig
    rw [← hval, hL]
    exact (Nat.mul_le_mul_left _ this).trans (Nat.le_add_left _ _)

theorem encode_minValue : encode Int64.minValue = [0, 0, 0, 0, 0, 0, 0, 0x80, 0x80] := by
  simp [encode, magnitudeBytes, withSign, Int64.lt_iff_toInt_lt]

/-- The least number needs nine bytes, of which decoding reads eight: its magnitude `2^63` as a
64-bit word is the least number again, and negating it wraps back to itself. -/
theorem decode_encode_minValue : decode (encode Int64.minValue) = Int64.minValue := by
  rw [encode_minValue]
  decide

theorem decode_encode (n : Int64) : decode (encode n) = n := by
  by_cases h : n = Int64.minValue
  · subst h
    exact decode_encode_minValue
  obtain ⟨hlen, hval⟩ := value_encode h
  exact Int64.toInt_inj.1 (by rw [toInt_decode hlen, hval])

/-! ## Shortest form and truth -/

/-- Whether a script number is in its shortest form: its last byte has bits besides the sign
bit, unless the byte before it has its high bit set, so that the sign needs a byte of its own.
Zero, the empty string, is in shortest form. -/
def isMinimal (e : Bytes) : Bool :=
  match e.reverse with
  | [] => true
  | [last] => last &&& 0x7f != 0
  | last :: prev :: _ => last &&& 0x7f != 0 || prev &&& 0x80 != 0

theorem isMinimal_encode (n : Int64) : isMinimal (encode n) = true := by
  by_cases hn : n = 0
  · subst hn
    rw [encode_zero]
    rfl
  obtain ⟨init, last, hlast, -, -, heq⟩ := encode_eq_of_ne_zero hn
  rw [heq]
  by_cases htop : last &&& 0x80 = 0
  · -- the last byte keeps its nonzero low bits
    have hsign : withSign (decide (n < 0)) [last] =
        [if decide (n < 0) then last ||| 0x80 else last] := by
      simp only [withSign, htop, ne_eq, not_true_eq_false, if_false]
      split_ifs <;> rfl
    have hlow : (if decide (n < 0) then last ||| 0x80 else last) &&& 0x7f ≠ 0 := by
      split_ifs
      · rwa [or_sign_and_7f last htop]
      · rwa [and_7f_of_and_80 last htop]
    rw [hsign]
    generalize (if decide (n < 0) then last ||| 0x80 else last) = last' at hlow
    rw [isMinimal, List.reverse_append, List.reverse_singleton, List.singleton_append]
    cases init.reverse <;> simp [hlow]
  · -- the sign byte follows a byte whose high bit is set
    rw [isMinimal, withSign, if_pos htop, List.reverse_append]
    simp [htop]

set_option maxRecDepth 4000 in
theorem isTrue_singleton : ∀ b : UInt8, isTrue [b] = true ↔ b &&& 0x7f ≠ 0 := by
  decide

theorem isTrue_append (init : Bytes) (last : UInt8) :
    isTrue (init ++ [last]) = true ↔ (∃ b ∈ init, b ≠ 0) ∨ last &&& 0x7f ≠ 0 := by
  induction init with
  | nil => simpa using isTrue_singleton last
  | cons b init ih =>
      obtain ⟨c, cs, hc⟩ : ∃ c cs, init ++ [last] = c :: cs :=
        List.exists_cons_of_ne_nil (by simp)
      have hstep : isTrue (b :: c :: cs) = true ↔ b ≠ 0 ∨ isTrue (c :: cs) = true := by
        simp [isTrue]
      rw [List.cons_append, hc, hstep, ← hc, ih]
      simp only [List.mem_cons, exists_eq_or_imp, or_assoc]

/-- An element of at most eight bytes is true exactly when it decodes to a nonzero number; the
negative zero `0x80` is false both ways. -/
theorem isTrue_eq_decode_ne_zero {e : Bytes} (h : e.length ≤ 8) : isTrue e = (decode e != 0) := by
  rcases List.eq_nil_or_concat' e with rfl | ⟨init, last, rfl⟩
  · rfl
  have hv := toInt_decode h
  rw [value_append] at hv
  dsimp only at hv
  have hpow : 0 < 256 ^ init.length := Nat.pow_pos (by decide)
  have hdec : decode (init ++ [last]) ≠ 0 ↔
      Bytes.toNatLE init ≠ 0 ∨ (last &&& 0x7f).toNat ≠ 0 := by
    rw [ne_eq, ← Int64.toInt_inj, hv, Int64.toInt_zero]
    constructor
    · intro hne
      by_contra hzero
      apply hne
      split_ifs <;> simp_all
    · rintro hne
      have : 0 < Bytes.toNatLE init + 256 ^ init.length * (last &&& 0x7f).toNat := by
        rcases hne with hne | hne
        · omega
        · exact Nat.add_pos_right _ (Nat.mul_pos hpow (Nat.pos_of_ne_zero hne))
      split_ifs <;> omega
  rw [Bool.eq_iff_iff, isTrue_append, bne_iff_ne, hdec, ne_eq (Bytes.toNatLE init),
    Bytes.toNatLE_eq_zero_iff, ne_eq ((last &&& 0x7f).toNat), ← UInt8.toNat_zero, UInt8.toNat_inj]
  simp

theorem encode_eq_nil_iff (n : Int64) : encode n = [] ↔ n = 0 := by
  refine ⟨fun h => ?_, fun h => h ▸ encode_zero⟩
  by_contra hn
  obtain ⟨init, last, -, -, -, heq⟩ := encode_eq_of_ne_zero hn
  have : withSign (decide (n < 0)) [last] ≠ [] := by
    simp only [withSign]
    split_ifs <;> simp
  simp [heq, this] at h

theorem length_encode_le_iff (n : Int64) : (encode n).length ≤ 8 ↔ n ≠ Int64.minValue := by
  refine ⟨fun h hmin => ?_, fun h => (value_encode h).1⟩
  rw [hmin, encode_minValue] at h
  simp at h

/-- Script numbers: decoding inverts encoding on every 64-bit number, the least included. Every
number but the least takes at most eight bytes, the least nine. The encoding is empty exactly for
zero and is otherwise in shortest form. An element of at most eight bytes is true exactly when it
decodes to a nonzero number. -/
theorem encode_roundtrip_minimal_truth :
    (∀ n : Int64, decode (encode n) = n) ∧
    (∀ n : Int64, (encode n).length ≤ 8 ↔ n ≠ Int64.minValue) ∧
    (encode Int64.minValue).length = 9 ∧
    (∀ n : Int64, (encode n = [] ↔ n = 0) ∧ isMinimal (encode n) = true) ∧
    (∀ e : Bytes, e.length ≤ 8 → isTrue e = (decode e != 0)) :=
  ⟨decode_encode, length_encode_le_iff, by rw [encode_minValue]; rfl,
    fun n => ⟨encode_eq_nil_iff n, isMinimal_encode n⟩, fun _ h => isTrue_eq_decode_ne_zero h⟩

end ScriptNum

end Bitcoin
