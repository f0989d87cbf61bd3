import Bitcoin.Proofs.Script.Run
import Bitcoin.Proofs.Script.Decode
import Bitcoin.Proofs.Script.Number

/-! # Pay-to-public-key-hash scripts run

The actions of the opcodes a P2PKH spend uses, on a stack whose top elements are known. Pushing a
signature and a key, and then running `OP_DUP OP_HASH160 <h> OP_EQUALVERIFY OP_CHECKSIG`, leaves a
true element exactly when the key hashes to `h` and the signature checks against it.
-/

namespace Bitcoin

namespace Semantics

variable (rest : List Bytes) (alt : Stack) (z : Nat)

theorem dup_run (x : Bytes) :
    copyFromDepths [0] ⟨⟨x :: rest⟩, alt, z⟩ = (true, ⟨⟨x :: x :: rest⟩, alt, z⟩) := rfl

theorem digest_run (f : Bytes → Bytes) (x : Bytes) :
    digest f ⟨⟨x :: rest⟩, alt, z⟩ = (true, ⟨⟨f x :: rest⟩, alt, z⟩) := rfl

theorem equal_run (a b : Bytes) :
    equal ⟨⟨a :: b :: rest⟩, alt, z⟩ =
      (true, ⟨⟨ScriptNum.encode (if (some a == some b) = true then 1 else 0) :: rest⟩, alt, z⟩) :=
  rfl

theorem verify_run (x : Bytes) :
    verify ⟨⟨x :: rest⟩, alt, z⟩ = (ScriptNum.isTrue x, ⟨⟨rest⟩, alt, z⟩) := rfl

theorem andVerify_run {a : Action} {m m' : Machine} (h : a m = (true, m')) :
    andVerify a m = verify m' := by
  show (do let b ← a; if b then verify else pure false) m = _
  simp only [bind, StateT.bind, h]
  rfl

theorem equalVerify_run (x : Bytes) :
    andVerify equal ⟨⟨x :: x :: rest⟩, alt, z⟩ = (true, ⟨⟨rest⟩, alt, z⟩) := by
  rw [andVerify_run (equal_run rest alt z x x), verify_run, beq_self_eq_true, if_pos rfl,
    ScriptNum.encode_one]
  rfl

theorem checkSig_run (key sig : Bytes) :
    checkSig ⟨⟨key :: sig :: rest⟩, alt, z⟩ =
      (true, ⟨⟨ScriptNum.encode (if checkSignature z key sig = true then 1 else 0) :: rest⟩, alt, z⟩) :=
  rfl

end Semantics

open Semantics

theorem checkTop_run (rest : List Bytes) (alt : Stack) (z : Nat) :
    checkTop ⟨⟨[1] :: rest⟩, alt, z⟩ = .ok () ⟨⟨rest⟩, alt, z⟩ := rfl

theorem evaluate_push_push [Digests] {a b : Bytes} (ha : a.length ≤ maxElementSize)
    (hb : b.length ≤ maxElementSize) (z : Nat) :
    evaluate [.push a, .push b] { sigHash := z } = .ok () ⟨⟨[b, a]⟩, {}, z⟩ := by
  rw [evaluate, evaluateFrom_cons_run (stepOperation_push_run rfl ha _)
      (by simp [Machine.depth, Stack.size, Stack.push, maxStackSize]),
    evaluateFrom_cons_run (stepOperation_push_run rfl hb _)
      (by simp [Machine.depth, Stack.size, Stack.push, maxStackSize])]
  rfl

/-- The P2PKH locking script, on a key above a signature, leaves what lies below them when the
key hashes to `h` and the signature checks against the key. -/
theorem p2pkh_run [Digests] {key sig : Bytes} {h : FixedBytes 20} (rest : List Bytes) (alt : Stack) (z : Nat)
    (hdepth : rest.length + alt.size + 4 ≤ maxStackSize) (hh : Hash.hash160 key = h)
    (hsig : checkSignature z key sig = true) :
    (do evaluate [.code Opcode.dup, .code Opcode.hash160, .push h.toList,
        .code Opcode.equalVerify, .code Opcode.checkSig]; checkTop)
      ⟨⟨key :: sig :: rest⟩, alt, z⟩ = .ok () ⟨⟨rest⟩, alt, z⟩ := by
  have hlen : h.toList.length ≤ maxElementSize := by
    rw [h.length_toList]
    decide
  have hrun : evaluate [.code Opcode.dup, .code Opcode.hash160, .push h.toList,
      .code Opcode.equalVerify, .code Opcode.checkSig] ⟨⟨key :: sig :: rest⟩, alt, z⟩ =
      .ok () ⟨⟨[1] :: rest⟩, alt, z⟩ := by
    rw [evaluate, evaluateFrom_cons_run (stepOperation_action_run rfl rfl (dup_run _ _ _ _))
        (by simp only [Machine.depth_mk, List.length_cons]; omega),
      evaluateFrom_cons_run (stepOperation_action_run rfl rfl (digest_run _ _ _ _ _))
        (by simp only [Machine.depth_mk, List.length_cons]; omega),
      evaluateFrom_cons_run (stepOperation_push_run rfl hlen _)
        (by simp only [Stack.push, Machine.depth_mk, List.length_cons]; omega), hh]
    simp only [Stack.push]
    rw [evaluateFrom_cons_run (stepOperation_action_run rfl rfl (equalVerify_run _ _ _ _))
        (by simp only [Machine.depth_mk, List.length_cons]; omega),
      evaluateFrom_cons_run (stepOperation_action_run rfl rfl (checkSig_run _ _ _ _ _))
        (by simp only [Machine.depth_mk, List.length_cons]; omega),
      hsig, if_pos rfl, ScriptNum.encode_one]
    rfl
  rw [run_bind_of_ok hrun, checkTop_run]

end Bitcoin
