import Bitcoin.Bytes
import Mathlib

/-! # Numbers and their bytes

Reading the fixed-width bytes of a number gives it back modulo the width's range, and reading its
minimal big-endian bytes gives it back exactly; a number below `256^k` has at most `k` minimal
bytes. Conversely, bytes without a leading zero are the minimal bytes of their number, so every
byte string is its leading zero bytes followed by the minimal bytes of the number it stands for.
-/

namespace Bitcoin

namespace Bytes

@[simp] theorem toNatBE_nil : toNatBE [] = 0 := rfl

@[simp] theorem toNatBE_append_singleton (bs : Bytes) (b : UInt8) :
    toNatBE (bs ++ [b]) = 256 * toNatBE bs + b.toNat := by
  rw [toNatBE, List.foldl_append]
  rfl

@[simp] theorem toNatBE_zero_cons (bs : Bytes) : toNatBE (0 :: bs) = toNatBE bs := rfl

theorem toNatBE_reverse (bs : Bytes) : toNatBE bs.reverse = toNatLE bs := by
  rw [toNatBE, List.foldl_reverse, toNatLE]
  congr 1
  funext b acc
  omega

theorem toNatBE_cons (b : UInt8) (bs : Bytes) :
    toNatBE (b :: bs) = b.toNat * 256 ^ bs.length + toNatBE bs := by
  induction bs using List.reverseRecOn with
  | nil => simp [toNatBE]
  | append_singleton bs c ih =>
      rw [← List.cons_append, toNatBE_append_singleton, ih, toNatBE_append_singleton,
        List.length_append, List.length_singleton, Nat.pow_succ]
      ring

theorem toNatBE_replicate_zero_append (n : Nat) (bs : Bytes) :
    toNatBE (List.replicate n 0 ++ bs) = toNatBE bs := by
  induction n with
  | zero => rfl
  | succ n ih => rw [List.replicate_succ, List.cons_append, toNatBE_zero_cons, ih]

end Bytes

@[simp] theorem length_leBytes (width n : Nat) : (leBytes width n).length = width := by
  induction width generalizing n with
  | zero => rfl
  | succ width ih => rw [leBytes, List.length_cons, ih]

@[simp] theorem length_beBytes (width n : Nat) : (beBytes width n).length = width := by
  rw [beBytes, List.length_reverse, length_leBytes]

theorem toNatLE_leBytes (width n : Nat) : Bytes.toNatLE (leBytes width n) = n % 256 ^ width := by
  induction width generalizing n with
  | zero => rw [leBytes, Nat.pow_zero, Nat.mod_one]; rfl
  | succ width ih =>
      rw [leBytes, Bytes.toNatLE, List.foldr_cons, ← Bytes.toNatLE, ih, Nat.pow_succ', Nat.mod_mul]
      simp

theorem toNatLE_lt (bs : Bytes) : Bytes.toNatLE bs < 256 ^ bs.length := by
  induction bs with
  | nil => simp [Bytes.toNatLE]
  | cons b bs ih =>
      rw [Bytes.toNatLE, List.foldr_cons, ← Bytes.toNatLE, List.length_cons, Nat.pow_succ]
      have := b.toNat_lt
      omega

theorem leBytes_toNatLE (bs : Bytes) : leBytes bs.length (Bytes.toNatLE bs) = bs := by
  induction bs with
  | nil => rfl
  | cons b bs ih =>
      rw [List.length_cons, leBytes, Bytes.toNatLE, List.foldr_cons, ← Bytes.toNatLE]
      have := b.toNat_lt
      have hdiv : (b.toNat + 256 * Bytes.toNatLE bs) / 256 = Bytes.toNatLE bs := by omega
      rw [hdiv, ih]
      congr 1
      exact UInt8.toNat_inj.1 (by simp)

theorem leBytes_append_inj {width a b : Nat} {r r' : Bytes} (ha : a < 256 ^ width)
    (hb : b < 256 ^ width) (h : leBytes width a ++ r = leBytes width b ++ r') : a = b ∧ r = r' := by
  obtain ⟨hab, hr⟩ := List.append_inj h (by rw [length_leBytes, length_leBytes])
  have hval := congrArg Bytes.toNatLE hab
  rw [toNatLE_leBytes, toNatLE_leBytes, Nat.mod_eq_of_lt ha, Nat.mod_eq_of_lt hb] at hval
  exact ⟨hval, hr⟩

theorem toNatBE_beBytes (width n : Nat) : Bytes.toNatBE (beBytes width n) = n % 256 ^ width := by
  rw [beBytes, Bytes.toNatBE_reverse, toNatLE_leBytes]

theorem beBytes_toNatBE (bs : Bytes) : beBytes bs.length (Bytes.toNatBE bs) = bs := by
  have h := leBytes_toNatLE bs.reverse
  rw [List.length_reverse, ← Bytes.toNatBE_reverse, List.reverse_reverse] at h
  rw [beBytes, h, List.reverse_reverse]

theorem toNatBE_minimalBytes (n : Nat) : Bytes.toNatBE (minimalBytes n) = n := by
  fun_induction minimalBytes n with
  | case1 => rfl
  | case2 n hn ih =>
      rw [Bytes.toNatBE_append_singleton, ih]
      simp
      omega

theorem minimalBytes_toNatBE {bs : Bytes} (h : bs.head? ≠ some 0) :
    minimalBytes (Bytes.toNatBE bs) = bs := by
  induction bs using List.reverseRecOn with
  | nil => rw [Bytes.toNatBE_nil, minimalBytes, if_pos rfl]
  | append_singleton bs b ih =>
      have hn : Bytes.toNatBE (bs ++ [b]) ≠ 0 := by
        cases bs with
        | nil =>
            simp only [List.nil_append, List.head?_cons, ne_eq, Option.some.injEq] at h
            simpa [Bytes.toNatBE, ← UInt8.toNat_inj] using h
        | cons c cs =>
            simp only [List.cons_append, List.head?_cons, ne_eq, Option.some.injEq] at h
            have hc : 0 < c.toNat := Nat.pos_of_ne_zero (by simpa [← UInt8.toNat_inj] using h)
            have hpow : 0 < 256 ^ (cs ++ [b]).length := Nat.pow_pos (by norm_num)
            have := Nat.mul_pos hc hpow
            rw [List.cons_append, Bytes.toNatBE_cons]
            omega
      have hb := b.toNat_lt
      have hdiv : Bytes.toNatBE (bs ++ [b]) / 256 = Bytes.toNatBE bs := by
        rw [Bytes.toNatBE_append_singleton]
        omega
      have hlast : (Bytes.toNatBE (bs ++ [b])).toUInt8 = b := by
        rw [Bytes.toNatBE_append_singleton]
        exact UInt8.toNat_inj.1 (by simp)
      rw [minimalBytes, if_neg hn, hdiv, hlast]
      congr 1
      cases bs with
      | nil => rw [Bytes.toNatBE_nil, minimalBytes, if_pos rfl]
      | cons c cs => exact ih (by simpa using h)

theorem replicate_append_minimalBytes (data : Bytes) :
    List.replicate (data.takeWhile (· == 0)).length 0 ++ minimalBytes (Bytes.toNatBE data) =
      data := by
  have hzeros : data.takeWhile (· == 0) = List.replicate (data.takeWhile (· == 0)).length 0 :=
    List.eq_replicate_iff.2 ⟨rfl, fun b hb => by simpa using List.mem_takeWhile_imp hb⟩
  have hsplit := List.takeWhile_append_dropWhile (p := (· == (0 : UInt8))) (l := data)
  -- the rest after the zeros does not start with one
  have hhead : (data.dropWhile (· == 0)).head? ≠ some 0 := by
    have := List.head?_dropWhile_not (· == (0 : UInt8)) data
    intro h
    rw [h] at this
    simp at this
  have hnumber := congrArg Bytes.toNatBE hsplit
  rw [hzeros, Bytes.toNatBE_replicate_zero_append] at hnumber
  rw [← hnumber, minimalBytes_toNatBE hhead, ← hzeros]
  exact hsplit

theorem length_minimalBytes_le {n k : Nat} (h : n < 256 ^ k) : (minimalBytes n).length ≤ k := by
  induction k generalizing n with
  | zero =>
      rw [Nat.pow_zero] at h
      rw [show n = 0 by omega, minimalBytes, if_pos rfl]
      exact Nat.zero_le _
  | succ k ih =>
      rw [minimalBytes]
      split
      · exact Nat.zero_le _
      · rw [List.length_append, List.length_singleton]
        have : n / 256 < 256 ^ k := by
          rw [Nat.pow_succ'] at h
          omega
        have := ih this
        omega

end Bitcoin
