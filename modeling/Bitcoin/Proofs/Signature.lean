import Bitcoin.Signature
import Bitcoin.Proofs.Wire.Decode
import Mathlib.Tactic.SplitIfs

/-! # DER signatures read back

An integer below `2^256` has a DER body of one to 33 bytes that reads back as it, so the DER
sequence of a signature with both scalars below `2^256` has lengths that fit their single bytes,
and reading it gives the signature back. For larger scalars the sequence reads back exactly
while four bytes and the two bodies fit in its single length byte; past 255 that byte wraps
around, no longer counts the bytes after it, and reading fails.
-/

namespace Bitcoin

namespace Signature

theorem invalid_run {d : Decoder α} {r r' : Reader} {a : α} (h : d r = .ok a r') :
    invalid d r = .ok a r' := by
  simp only [invalid, tryCatch, MonadExcept.tryCatch, tryCatchThe, MonadExceptOf.tryCatch,
    EStateM.tryCatch, h]

theorem minimalBytes_ne_nil {v : Nat} (h : v ≠ 0) : minimalBytes v ≠ [] := by
  rw [minimalBytes, if_neg h]
  simp

theorem derInteger_ne_nil (v : Nat) : derInteger v ≠ [] := by
  simp only [derInteger]
  split
  · simp
  · split
    · simp
    · exact minimalBytes_ne_nil ‹_›

@[simp] theorem toNatBE_derInteger (v : Nat) : Bytes.toNatBE (derInteger v) = v := by
  simp only [derInteger]
  rw [apply_ite Bytes.toNatBE, Bytes.toNatBE_zero_cons, ite_self]
  split
  · rename_i h0
    rw [h0]
    rfl
  · exact toNatBE_minimalBytes v

theorem length_derInteger_le {v : Nat} (hv : v < 2 ^ 256) : (derInteger v).length ≤ 33 := by
  have hmin : (minimalBytes v).length ≤ 32 := length_minimalBytes_le (by simpa using hv)
  -- the body has at most 32 bytes, and a zero byte may stand in front of it
  have hbody : (if v = 0 then [0] else minimalBytes v).length ≤ 32 := by
    split
    · simp
    · exact hmin
  simp only [derInteger]
  generalize (if v = 0 then [0] else minimalBytes v) = bs at hbody ⊢
  split
  · rw [List.length_cons]
    omega
  · exact Nat.le_trans hbody (by omega)

theorem readInteger_run (position : Nat) (bytes rest : Bytes) (h0 : bytes ≠ [])
    (h : bytes.length < 256) :
    readInteger ⟨position, 0x02 :: bytes.length.toUInt8 :: bytes ++ rest⟩ =
      .ok (Bytes.toNatBE bytes) ⟨position + 2 + bytes.length, rest⟩ := by
  have hlen : bytes.length.toUInt8.toNat = bytes.length := by simp; omega
  have hne : bytes.length.toUInt8 ≠ 0 := by
    intro hzero
    have := congrArg UInt8.toNat hzero
    rw [hlen] at this
    exact h0 (List.eq_nil_of_length_eq_zero this)
  simp [readInteger, bind, EStateM.bind, invalid_run (Decoder.u8_run _ _ _), hlen, hne,
    invalid_run (Decoder.slice_run _ _ _), pure, EStateM.pure]

theorem length_der_le (sig : Signature) (hr : sig.r < 2 ^ 256) (hs : sig.s < 2 ^ 256) :
    sig.der.length ≤ 72 := by
  have hrl := length_derInteger_le hr
  have hsl := length_derInteger_le hs
  simp only [der, List.length_append, List.length_cons, List.length_nil]
  omega

theorem lengths_fit_of_lt {r s : Nat} (hr : r < 2 ^ 256) (hs : s < 2 ^ 256) :
    4 + (derInteger r).length + (derInteger s).length ≤ 255 := by
  have hrl := length_derInteger_le hr
  have hsl := length_derInteger_le hs
  omega

theorem parseDer_der_of_lengths_fit (sig : Signature)
    (hfit : 4 + (derInteger sig.r).length + (derInteger sig.s).length ≤ 255) :
    parseDer sig.der = .ok sig := by
  have hreadR := readInteger_run 2 (derInteger sig.r)
    ([0x02, (derInteger sig.s).length.toUInt8] ++ derInteger sig.s) (derInteger_ne_nil _) (by omega)
  have hreadS := readInteger_run (2 + 2 + (derInteger sig.r).length) (derInteger sig.s) []
    (derInteger_ne_nil _) (by omega)
  have hlen : ((derInteger sig.r).length + (derInteger sig.s).length + 4) % 256 =
      (derInteger sig.r).length + ((derInteger sig.s).length + 1 + 1) + 1 + 1 := by
    omega
  simp only [List.cons_append, List.nil_append, List.append_nil] at hreadR hreadS
  apply Decoder.parse_of_run
  simp [readDer, der, Reader.ofBytes, bind, EStateM.bind, invalid_run (Decoder.u8_run _ _ _),
    Decoder.reader_run, hlen, Reader.remaining, hreadR, hreadS, Reader.finished, pure,
    EStateM.pure]
  rfl

/-- The DER sequence of a signature whose scalars are below `2^256` reads back as it. -/
theorem parseDer_der (sig : Signature) (hr : sig.r < 2 ^ 256) (hs : sig.s < 2 ^ 256) :
    parseDer sig.der = .ok sig :=
  parseDer_der_of_lengths_fit sig (lengths_fit_of_lt hr hs)

theorem der_eq_cons (sig : Signature) :
    sig.der = 0x30 :: ((derInteger sig.r).length + (derInteger sig.s).length + 4).toUInt8 ::
      ([0x02, (derInteger sig.r).length.toUInt8] ++ derInteger sig.r ++
        [0x02, (derInteger sig.s).length.toUInt8] ++ derInteger sig.s) := by
  simp [der]

theorem readDer_of_length_ne (position : Nat) {len : UInt8} {rest : Bytes}
    (h : len.toNat ≠ rest.length) :
    ∃ e r, readDer ⟨position, 0x30 :: len :: rest⟩ = .error e r := by
  simp [readDer, bind, EStateM.bind, invalid_run (Decoder.u8_run _ _ _), Decoder.reader_run,
    Reader.remaining, h, throw, throwThe, MonadExceptOf.throw, EStateM.throw]

theorem parseDer_der_of_lengths_overflow (sig : Signature)
    (hover : 255 < 4 + (derInteger sig.r).length + (derInteger sig.s).length) :
    ∃ e, parseDer sig.der = .error e := by
  -- the sequence length is written modulo 256, below the number of bytes that follow it
  have hwrap : ((derInteger sig.r).length + (derInteger sig.s).length + 4).toUInt8.toNat ≠
      ([0x02, (derInteger sig.r).length.toUInt8] ++ derInteger sig.r ++
        [0x02, (derInteger sig.s).length.toUInt8] ++ derInteger sig.s).length := by
    simp only [Nat.toUInt8_eq, UInt8.toNat_ofNat', List.length_append, List.length_cons,
      List.length_nil]
    omega
  obtain ⟨e, r, hrun⟩ := readDer_of_length_ne 0 hwrap
  refine ⟨e, ?_⟩
  rw [parseDer, Decoder.parse, Decoder.runOn, EStateM.run, Reader.ofBytes, der_eq_cons, hrun]

/-- DER encoding reads back exactly when the sequence length fits its single byte, which it does
for all scalars below `2^256`. -/
theorem parseDer_der_iff_lengths_fit :
    (∀ r s : Nat, parseDer (Signature.mk r s).der = .ok ⟨r, s⟩ ↔
      4 + (derInteger r).length + (derInteger s).length ≤ 255) ∧
    (∀ r s : Nat, r < 2 ^ 256 → s < 2 ^ 256 →
      4 + (derInteger r).length + (derInteger s).length ≤ 255) := by
  refine ⟨fun r s => ⟨fun hread => ?_, parseDer_der_of_lengths_fit ⟨r, s⟩⟩,
    fun r s hr hs => lengths_fit_of_lt hr hs⟩
  by_contra hover
  obtain ⟨e, herr⟩ := parseDer_der_of_lengths_overflow ⟨r, s⟩ (Nat.lt_of_not_le hover)
  rw [herr] at hread
  cases hread

end Signature

end Bitcoin
