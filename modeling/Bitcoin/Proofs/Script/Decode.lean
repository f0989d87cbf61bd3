import Bitcoin.Script.Basic
import Bitcoin.Proofs.Wire.Decode
import Mathlib.Tactic.SplitIfs

/-! # Script bytes decode back to their operations

The bytes of a list of operations decode back to it when each operation is one decoding can
produce from its own bytes: a push of fewer than `2^32` bytes, or an opcode that is not itself a
push (`OP_RESERVED`, or any byte above `OP_16`). Decoding never produces an opcode that is a push
byte, so a list holding one, such as `OP_1` given as an opcode, reads back as something else.
-/

namespace Bitcoin

namespace Operation

/-- Operations that their own bytes decode back to. -/
def Decodable : Operation → Prop
  | push data => data.length < 2 ^ 32
  | code c => c = 0x50 ∨ 0x60 < c

instance : DecidablePred Decodable := fun
  | push data => inferInstanceAs (Decidable (data.length < 2 ^ 32))
  | code c => inferInstanceAs (Decidable (c = 0x50 ∨ 0x60 < c))

theorem truncatedLength_run {d : Decoder Nat} {r r' : Reader} {n : Nat} (h : d r = .ok n r') :
    truncatedLength d r = .ok n r' := by
  simp only [truncatedLength, tryCatch, MonadExcept.tryCatch, tryCatchThe,
    MonadExceptOf.tryCatch, EStateM.tryCatch, h]

theorem pushData_run (position : Nat) (data rest : Bytes) :
    pushData data.length ⟨position, data ++ rest⟩ = .ok (push data) ⟨position + data.length, rest⟩ := by
  have hfits : ¬data.length > (Reader.mk position (data ++ rest)).remaining := by
    rw [Reader.remaining, List.length_append]
    omega
  simp only [pushData, bind, EStateM.bind, Decoder.reader_run]
  rw [if_neg hfits]
  exact run_bind_of_ok (Decoder.slice_run position data rest)

theorem pushData_header_run {d : Decoder Nat} {data rest : Bytes} {position : Nat} (header : Bytes)
    (hd : d ⟨position, header ++ (data ++ rest)⟩ =
      .ok data.length ⟨position + header.length, data ++ rest⟩) :
    (do pushData (← truncatedLength d)) ⟨position, header ++ data ++ rest⟩ =
      .ok (push data) ⟨position + (header ++ data).length, rest⟩ := by
  rw [List.append_assoc, run_bind_of_ok (truncatedLength_run hd), pushData_run,
    List.length_append, Nat.add_assoc]

theorem encode_ne_nil (op : Operation) : op.encode ≠ [] := by
  cases op with
  | code c => simp [encode]
  | push data =>
      simp only [encode]
      repeat' split
      all_goals simp

theorem ofOpcode_code {c : UInt8} (hc : c.toNat = 0x50 ∨ 0x60 < c.toNat) :
    ofOpcode c = pure (code c) := by
  unfold ofOpcode
  split_ifs <;> simp_all [UInt8.le_iff_toNat_le, ← UInt8.toNat_inj, Opcode.zero, Opcode.pushData1,
    Opcode.pushData2, Opcode.pushData4, Opcode.oneNegate] <;> omega

theorem ofOpcode_direct {c : UInt8} (h0 : 0 < c.toNat) (h1 : c.toNat < 0x4c) :
    ofOpcode c = pushData c.toNat := by
  unfold ofOpcode
  split_ifs <;> simp_all [UInt8.le_iff_toNat_le, ← UInt8.toNat_inj, Opcode.zero] <;> omega

theorem ofOpcode_run {op : Operation} (h : op.Decodable) {c : UInt8} {body : Bytes}
    (henc : op.encode = c :: body) (position : Nat) (rest : Bytes) :
    ofOpcode c ⟨position, body ++ rest⟩ = .ok op ⟨position + body.length, rest⟩ := by
  cases op with
  | code c' =>
      simp only [encode, List.cons.injEq] at henc
      obtain ⟨rfl, rfl⟩ := henc
      have hc : c'.toNat = 0x50 ∨ 0x60 < c'.toNat := by
        simp only [Decodable, UInt8.lt_iff_toNat_lt] at h
        rcases h with rfl | h
        · exact Or.inl rfl
        · exact Or.inr h
      rw [ofOpcode_code hc]
      rfl
  | push data =>
      simp only [Decodable] at h
      simp only [encode] at henc
      split_ifs at henc with h0 h1 h2 h3
      · -- the empty push is `OP_0`
        simp only [List.singleton_append, List.cons.injEq] at henc
        obtain ⟨rfl, rfl⟩ := henc
        rw [List.eq_nil_of_length_eq_zero h0]
        rfl
      · -- a direct push: the opcode byte is the length
        simp only [List.singleton_append, List.cons.injEq] at henc
        obtain ⟨rfl, rfl⟩ := henc
        have hc : data.length.toUInt8.toNat = data.length := by simp; omega
        rw [ofOpcode_direct (by omega) (by omega), hc]
        exact pushData_run position data rest
      · -- `OP_PUSHDATA1`, `OP_PUSHDATA2` and `OP_PUSHDATA4`: a header of 1, 2 or 4 bytes
        simp only [List.cons_append, List.nil_append, List.cons.injEq] at henc
        obtain ⟨rfl, rfl⟩ := henc
        have hc : data.length.toUInt8.toNat = data.length := by simp; omega
        have hlen := run_map_of_ok (f := UInt8.toNat)
          (Decoder.u8_run position data.length.toUInt8 (data ++ rest))
        rw [hc] at hlen
        show (do pushData (← truncatedLength (UInt8.toNat <$> Decoder.u8))) _ = _
        exact pushData_header_run [_] hlen
      · simp only [List.cons_append, List.cons.injEq] at henc
        obtain ⟨rfl, rfl⟩ := henc
        have hlen := Decoder.u16_run position data.length (data ++ rest) (by omega)
        show (do pushData (← truncatedLength (UInt16.toNat <$> Decoder.u16))) _ = _
        exact pushData_header_run _ (by simpa only [length_leBytes] using hlen)
      · simp only [List.cons_append, List.cons.injEq] at henc
        obtain ⟨rfl, rfl⟩ := henc
        have hlen := Decoder.u32_run position data.length (data ++ rest) h
        show (do pushData (← truncatedLength (UInt32.toNat <$> Decoder.u32))) _ = _
        exact pushData_header_run _ (by simpa only [length_leBytes] using hlen)

theorem pushData_eq_ok {n : Nat} {r r' : Reader} {op : Operation} (h : pushData n r = .ok op r') :
    ∃ data, op = push data := by
  obtain ⟨r₀, _, hr, h⟩ := run_bind_eq_ok h
  split at h
  · cases h
  · obtain ⟨data, _, -, h⟩ := run_bind_eq_ok h
    cases h
    exact ⟨data, rfl⟩

theorem bind_pushData_eq_ok {d : Decoder Nat} {r r' : Reader} {op : Operation}
    (h : (d >>= pushData) r = .ok op r') : ∃ data, op = push data := by
  obtain ⟨_, _, -, h⟩ := run_bind_eq_ok h
  exact pushData_eq_ok h

theorem ofOpcode_eq_code {c c' : UInt8} {r r' : Reader} (h : ofOpcode c r = .ok (code c') r') :
    c' = c ∧ (c = 0x50 ∨ 0x60 < c) := by
  unfold ofOpcode at h
  split_ifs at h with h0 h1 h2 h3 h4 h5 h6
  · cases h
  · obtain ⟨_, hpush⟩ := pushData_eq_ok h
    cases hpush
  · obtain ⟨_, hpush⟩ := bind_pushData_eq_ok h
    cases hpush
  · obtain ⟨_, hpush⟩ := bind_pushData_eq_ok h
    cases hpush
  · obtain ⟨_, hpush⟩ := bind_pushData_eq_ok h
    cases hpush
  · cases h
  · cases h
  · cases h
    refine ⟨rfl, ?_⟩
    simp_all [Opcode.zero, Opcode.pushData1, Opcode.pushData2, Opcode.pushData4, Opcode.oneNegate,
      UInt8.le_iff_toNat_le, UInt8.lt_iff_toNat_lt, ← UInt8.toNat_inj]
    omega

end Operation

open Operation in
theorem decodeOperations_run (ops : List Operation) (h : ∀ op ∈ ops, op.Decodable)
    (fuel position : Nat) (hfuel : (ops.flatMap encode).length ≤ fuel) :
    decodeOperations fuel ⟨position, ops.flatMap encode⟩ =
      .ok ops ⟨position + (ops.flatMap encode).length, []⟩ := by
  induction ops generalizing fuel position with
  | nil =>
      cases fuel with
      | zero => rfl
      | succ fuel => rfl
  | cons op ops ih =>
      obtain ⟨c, body, henc⟩ := List.exists_cons_of_ne_nil (encode_ne_nil op)
      rw [List.flatMap_cons, henc] at hfuel ⊢
      cases fuel with
      | zero => simp at hfuel
      | succ fuel =>
          have hop := ofOpcode_run (h op List.mem_cons_self) henc (position + 1) (ops.flatMap encode)
          have hfuel' : (ops.flatMap encode).length ≤ fuel := by
            simp only [List.cons_append, List.length_cons, List.length_append] at hfuel
            omega
          have hrest := ih (fun o ho => h o (List.mem_cons_of_mem _ ho)) fuel
            (position + 1 + body.length) hfuel'
          have hmore : (Reader.mk position (c :: body ++ ops.flatMap encode)).finished = false := rfl
          rw [decodeOperations, run_bind_of_ok (Decoder.reader_run _), hmore, if_neg Bool.false_ne_true,
            List.cons_append, run_bind_of_ok (Decoder.u8_run _ _ _), run_bind_of_ok hop,
            run_bind_of_ok hrest]
          show EStateM.Result.ok _ _ = _
          simp only [List.length_cons, List.length_append]
          congr 2
          omega

open Operation in
/-- Decoding the bytes of operations whose pushes fit their headers gives them back only when
every opcode among them is one that decoding produces. -/
theorem decodable_of_decodeOperations {ops : List Operation}
    (hpush : ∀ data, push data ∈ ops → data.length < 2 ^ 32) {fuel position : Nat} {r : Reader}
    (h : decodeOperations fuel ⟨position, ops.flatMap encode⟩ = .ok ops r) :
    ∀ op ∈ ops, op.Decodable := by
  induction ops generalizing fuel position with
  | nil => simp
  | cons op ops ih =>
      obtain ⟨c, body, henc⟩ := List.exists_cons_of_ne_nil (encode_ne_nil op)
      cases fuel with
      | zero => cases h
      | succ fuel =>
          have hmore : (Reader.mk position (c :: body ++ ops.flatMap encode)).finished = false := rfl
          rw [List.flatMap_cons, henc, decodeOperations, run_bind_of_ok (Decoder.reader_run _), hmore,
            if_neg Bool.false_ne_true, List.cons_append, run_bind_of_ok (Decoder.u8_run _ _ _)] at h
          obtain ⟨op', r2, hop', h⟩ := run_bind_eq_ok h
          obtain ⟨ops', r3, hrest, h⟩ := run_bind_eq_ok h
          cases h
          -- the first operation is one decoding produces: a push by hypothesis, an opcode by decoding
          have hdec : op.Decodable := by
            cases op with
            | push data => exact hpush data List.mem_cons_self
            | code c' =>
                simp only [encode, List.cons.injEq] at henc
                obtain ⟨rfl, -⟩ := henc
                exact (ofOpcode_eq_code hop').2
          rw [ofOpcode_run hdec henc (position + 1) (ops.flatMap encode)] at hop'
          cases hop'
          intro o ho
          rcases List.mem_cons.1 ho with rfl | ho
          · exact hdec
          · exact ih (fun data hd => hpush data (List.mem_cons_of_mem _ hd)) hrest o ho

namespace Script

theorem decode_raw (ops : List Operation) (h : ∀ op ∈ ops, op.Decodable) :
    decode (ofOperations ops).raw = .ok ops :=
  Decoder.parse_of_run (decodeOperations_run ops h _ 0 (Nat.le_refl _))

theorem operations_ofBytes_raw (ops : List Operation) (h : ∀ op ∈ ops, op.Decodable) :
    (ofBytes (ofOperations ops).raw).operations = .ok ops :=
  decode_raw ops h

/-- Among operations whose pushes each fit the widest push header, the bytes of a script built
from them decode back to them exactly when no opcode among them is a push byte. -/
theorem decode_raw_eq_ok_iff (ops : List Operation)
    (hpush : ∀ data, .push data ∈ ops → data.length < 2 ^ 32) :
    decode (ofOperations ops).raw = .ok ops ↔ ∀ c, .code c ∈ ops → c = 0x50 ∨ 0x60 < c := by
  have hdec : (∀ op ∈ ops, op.Decodable) ↔ ∀ c, .code c ∈ ops → c = 0x50 ∨ 0x60 < c := by
    constructor
    · intro h c hc
      exact h _ hc
    · intro h op hop
      cases op with
      | push data => exact hpush data hop
      | code c => exact h c hop
  rw [← hdec]
  constructor
  · intro h
    obtain ⟨r, hrun⟩ := Decoder.run_of_parse h
    exact decodable_of_decodeOperations hpush hrun
  · exact decode_raw ops

/-- A pay-to-public-key script, a 33-byte push and `OP_CHECKSIG`, round-trips. -/
theorem decode_raw_eq_ok_iff_p2pk :
    (∀ data, .push data ∈ [Operation.push (List.replicate 33 2), .code 0xac] →
        data.length < 2 ^ 32) ∧
      (decode (ofOperations [.push (List.replicate 33 2), .code 0xac]).raw =
          .ok [.push (List.replicate 33 2), .code 0xac] ↔
        ∀ c, .code c ∈ [Operation.push (List.replicate 33 2), .code 0xac] → c = 0x50 ∨ 0x60 < c) := by
  have hpush : ∀ data, .push data ∈ [Operation.push (List.replicate 33 2), .code 0xac] →
      data.length < 2 ^ 32 := by
    intro data hd
    simp only [List.mem_cons, Operation.push.injEq, reduceCtorEq, List.not_mem_nil, or_false] at hd
    rw [hd, List.length_replicate]
    decide
  exact ⟨hpush, decode_raw_eq_ok_iff _ hpush⟩

/-- `OP_1` given as an opcode is written as its byte, which reads back as the push of 1. -/
theorem decode_raw_opcode_one :
    decode (ofOperations [.code 0x51]).raw = .ok [.push [1]] ∧
      decode (ofOperations [.code 0x51]).raw ≠ .ok [.code 0x51] := by
  have h : decode (ofOperations [.code 0x51]).raw = .ok [.push [1]] := by decide +kernel
  refine ⟨h, ?_⟩
  rw [h]
  decide

end Script

end Bitcoin
