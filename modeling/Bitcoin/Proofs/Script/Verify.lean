import Bitcoin.Proofs.Script.P2pkh
import Mathlib.Control.Monad.Basic

/-! # Validating an unlocking script against a locking script

`verifyRecorded` runs `verifyScript` with a callback that records its arguments. The outcome is an
error exactly when a script does not decode or a call fails. An ordinary locking script calls back
once, with no script; a pay-to-script-hash one needs a push-only unlocking script, whose top
element is hashed, passed to the one call, and run as the redeem script on what lies below it.
-/

namespace Bitcoin

/-- A computation that may fail with an `Error` and records the calls of a signature-hash
callback. -/
abbrev Recorded := ExceptT Error (StateM (List (Option Script)))

def recording (f : Option Script → Outcome Nat) (redeem : Option Script) : Recorded Nat := do
  modify (· ++ [redeem])
  match f redeem with
  | .ok z => pure z
  | .error e => throw e

/-- The outcome of `verifyScript` with the callback `f`, and the calls it made, in order. -/
def verifyRecorded [Digests] (scriptSig scriptPubkey : Script) (f : Option Script → Outcome Nat) :
    Outcome Verdict × List (Option Script) :=
  (verifyScript scriptSig scriptPubkey (recording f)).run.run []

theorem runStage_eq_ok_iff {stage : String} {r : Run Unit} {m m' : Machine} :
    runStage stage r m = .ok m' ↔ r m = .ok () m' := by
  simp only [runStage, EStateM.run]
  split <;> simp_all

/-! ## The pay-to-script-hash locking script -/

theorem p2sh_locking_ok_iff [Digests] {h r : Bytes} {rest : List Bytes} {alt : Stack} {z : Nat}
    {m' : Machine} (hlen : h.length ≤ maxElementSize) :
    (do evaluate [.code Opcode.hash160, .push h, .code Opcode.equal]; checkTop)
        ⟨⟨r :: rest⟩, alt, z⟩ = .ok () m' ↔
      rest.length + 1 + alt.size < maxStackSize ∧ (Hash.hash160 r).toList = h ∧
        m' = ⟨⟨rest⟩, alt, z⟩ := by
  -- the three steps, on the machines they meet
  have hhash : stepOperation (.code Opcode.hash160) [] ⟨⟨r :: rest⟩, alt, z⟩ =
      .ok [] ⟨⟨(Hash.hash160 r).toList :: rest⟩, alt, z⟩ :=
    stepOperation_action_run rfl rfl (Semantics.digest_run rest alt z _ r)
  have hpush : stepOperation (.push h) [] ⟨⟨(Hash.hash160 r).toList :: rest⟩, alt, z⟩ =
      .ok [] ⟨⟨h :: (Hash.hash160 r).toList :: rest⟩, alt, z⟩ :=
    stepOperation_push_run rfl hlen _
  have hequal : stepOperation (.code Opcode.equal) []
      ⟨⟨h :: (Hash.hash160 r).toList :: rest⟩, alt, z⟩ = .ok []
        ⟨⟨ScriptNum.encode (if (some h == some (Hash.hash160 r).toList) = true then 1 else 0) ::
          rest⟩, alt, z⟩ :=
    stepOperation_action_run rfl rfl (Semantics.equal_run rest alt z _ _)
  -- the comparison leaves as many elements as the run starts with, `d`; the push before it one more
  have hd : ∀ x y : Bytes, (⟨⟨x :: rest⟩, alt, z⟩ : Machine).depth = rest.length + 1 + alt.size ∧
      (⟨⟨x :: y :: rest⟩, alt, z⟩ : Machine).depth = rest.length + 1 + alt.size + 1 := by
    intro x y
    simp only [Machine.depth_mk, List.length_cons, true_and]
    omega
  by_cases hroom : rest.length + 1 + alt.size < maxStackSize
  · have hrun : evaluate [.code Opcode.hash160, .push h, .code Opcode.equal] ⟨⟨r :: rest⟩, alt, z⟩ =
        .ok () ⟨⟨ScriptNum.encode (if (some h == some (Hash.hash160 r).toList) = true then 1 else 0) ::
          rest⟩, alt, z⟩ := by
      rw [evaluate, evaluateFrom_cons_run hhash (by rw [(hd _ r).1]; omega),
        evaluateFrom_cons_run hpush (by rw [(hd _ _).2]; omega),
        evaluateFrom_cons_run hequal (by rw [(hd _ r).1]; omega), evaluateFrom_nil_run]
    rw [run_bind_of_ok hrun]
    by_cases hmatch : (Hash.hash160 r).toList = h
    · rw [hmatch, beq_self_eq_true, if_pos rfl, ScriptNum.encode_one, checkTop_run]
      simp only [EStateM.Result.ok.injEq, true_and, hroom]
      exact eq_comm
    · have hne : (some h == some (Hash.hash160 r).toList) = false := by
        simp only [beq_eq_false_iff_ne, ne_eq, Option.some.injEq]
        exact fun h' => hmatch h'.symm
      rw [hne, if_neg Bool.false_ne_true, ScriptNum.encode_zero]
      simp only [hmatch, false_and, and_false, iff_false]
      intro h'
      cases h'
  · -- with `d` at the limit the push overflows, and beyond it already the hash
    have herr : ∃ e m'', evaluate [.code Opcode.hash160, .push h, .code Opcode.equal]
        ⟨⟨r :: rest⟩, alt, z⟩ = .error e m'' := by
      rcases Nat.lt_or_ge maxStackSize (rest.length + 1 + alt.size) with hover | hfull
      · exact ⟨_, _, evaluateFrom_cons_overflow hhash (by rw [(hd _ r).1]; exact hover)⟩
      · rw [evaluate, evaluateFrom_cons_run hhash (by rw [(hd _ r).1]; omega)]
        exact ⟨_, _, evaluateFrom_cons_overflow hpush (by rw [(hd _ _).2]; omega)⟩
    obtain ⟨e, m'', herr⟩ := herr
    rw [run_bind_of_error herr]
    simp only [hroom, false_and, iff_false]
    intro h'
    cases h'

theorem runStage_of_error {stage : String} {r : Run Unit} {m : Machine} {v : Verdict}
    (h : runStage stage r m = .error v) : v ≠ .valid ∧ ∀ m', r m ≠ .ok () m' := by
  constructor
  · rintro rfl
    simp only [runStage, EStateM.run] at h
    split at h <;> exact nomatch h
  · intro m' hrun
    rw [runStage_eq_ok_iff.2 hrun] at h
    exact nomatch h

section Outcomes

variable [Digests] {s p : Script} {f : Option Script → Outcome Nat} {us ps : List Operation}

theorem verifyRecorded_of_scriptSig_error {e : Error} (hs : s.operations = .error e) :
    verifyRecorded s p f = (.error e, []) := by
  simp only [verifyRecorded, verifyScript, hs, verifyScript.liftExcept]
  rfl

theorem verifyRecorded_of_scriptPubkey_error {e : Error} (hs : s.operations = .ok us)
    (hp : p.operations = .error e) : verifyRecorded s p f = (.error e, []) := by
  simp only [verifyRecorded, verifyScript, hs, hp, verifyScript.liftExcept, pure_bind]
  rfl

theorem verifyRecorded_of_not_p2sh (hs : s.operations = .ok us) (hp : p.operations = .ok ps)
    (hnp : p.isP2sh = false) :
    verifyRecorded s p f = (match f none with
      | .error e => .error e
      | .ok z => .ok (match runStage "unlocking script" (evaluate us) { sigHash := z } with
        | .error v => v
        | .ok m1 => match runStage "locking script" (do evaluate ps; checkTop) m1 with
          | .error v => v
          | .ok _ => .valid), [none]) := by
  simp only [verifyRecorded, verifyScript, hs, hp, hnp, verifyScript.liftExcept, recording,
    pure_bind, Bool.false_and, Bool.false_eq_true, if_false, Bool.not_false, if_true]
  cases hf : f none with
  | error e =>
      simp
      rfl
  | ok z =>
      simp only
      cases hu : runStage "unlocking script" (evaluate us) { sigHash := z } with
      | error v =>
          simp [hu]
          rfl
      | ok m1 =>
          cases hl : runStage "locking script" (do evaluate ps; checkTop) m1 <;>
            simp [hu, hl] <;> rfl

theorem verifyRecorded_of_not_pushOnly (hs : s.operations = .ok us) (hp : p.operations = .ok ps)
    (hp2sh : p.isP2sh = true) (hpush : s.isPushOnly = false) :
    verifyRecorded s p f = (.ok (.invalid "P2SH unlocking script must be push-only"), []) := by
  simp only [verifyRecorded, verifyScript, hs, hp, hp2sh, hpush, verifyScript.liftExcept,
    pure_bind, Bool.not_false, Bool.and_self, if_true]
  rfl

theorem verifyRecorded_of_p2sh (hs : s.operations = .ok us) (hp : p.operations = .ok ps)
    (hp2sh : p.isP2sh = true) (hpush : s.isPushOnly = true) :
    verifyRecorded s p f = match runStage "unlocking script" (evaluate us) { sigHash := 0 } with
      | .error v => (.ok v, [])
      | .ok m1 => match m1.stack.peek with
        | none => (.ok (.invalid ("unlocking script: " ++ ScriptFailure.emptyStack.message)), [])
        | some r => (match f (some (.ofBytes r)) with
          | .error e => .error e
          | .ok z => .ok (match runStage "locking script" (do evaluate ps; checkTop)
              { m1 with sigHash := z } with
            | .error v => v
            | .ok m2 => match (Script.ofBytes r).operations with
              | .error e => .invalid ("redeem script: " ++
                  (ScriptFailure.invalidRedeemScript e.message).message)
              | .ok ops => match runStage "redeem script" (do evaluate ops; checkTop) m2 with
                | .error v => v
                | .ok _ => .valid), [some (.ofBytes r)]) := by
  simp only [verifyRecorded, verifyScript, hs, hp, hp2sh, hpush, verifyScript.liftExcept,
    recording, pure_bind, Bool.not_true, Bool.and_false, Bool.false_eq_true, if_false, if_true]
  cases hu : runStage "unlocking script" (evaluate us) { sigHash := 0 } with
  | error v =>
      simp
      rfl
  | ok m1 =>
      simp only
      cases htop : m1.stack.peek with
      | none =>
          simp
          rfl
      | some r =>
          cases hf : f (some (.ofBytes r)) with
          | error e =>
              simp [hf]
              rfl
          | ok z =>
              cases hl : runStage "locking script" (do evaluate ps; checkTop)
                  { m1 with sigHash := z } with
              | error v =>
                  simp [hf, hl]
                  rfl
              | ok m2 =>
                  cases hops : (Script.ofBytes r).operations with
                  | error e =>
                      simp [hf, hl, hops]
                      rfl
                  | ok ops =>
                      cases hr : runStage "redeem script" (do evaluate ops; checkTop) m2 <;>
                        simp [hf, hl, hops, hr] <;> rfl

omit [Digests] in
theorem stage_valid_iff {stage : String} {r : Run Unit} {m : Machine} {k : Machine → Verdict} :
    (match runStage stage r m with
      | .error v => v
      | .ok m' => k m') = .valid ↔ ∃ m', r m = .ok () m' ∧ k m' = .valid := by
  cases h : runStage stage r m with
  | error v =>
      obtain ⟨hv, hrun⟩ := runStage_of_error h
      exact iff_of_false hv fun ⟨m', hm', _⟩ => hrun m' hm'
  | ok m' =>
      simp only [runStage_eq_ok_iff.1 h, EStateM.Result.ok.injEq, true_and, exists_eq_left']

theorem verifyRecorded_valid_iff_of_not_p2sh (hs : s.operations = .ok us)
    (hp : p.operations = .ok ps) (hnp : p.isP2sh = false) :
    (verifyRecorded s p f).1 = .ok .valid ↔ ∃ z m1 m2, f none = .ok z ∧
      evaluate us { sigHash := z } = .ok () m1 ∧ (do evaluate ps; checkTop) m1 = .ok () m2 := by
  rw [verifyRecorded_of_not_p2sh hs hp hnp]
  cases hf : f none with
  | error e => simp
  | ok z =>
      simp only [Except.ok.injEq, stage_valid_iff, and_true, exists_eq_left', exists_and_left]

theorem p2sh_verdict_valid_iff {h r : Bytes} {rest : List Bytes} {alt : Stack} {z : Nat}
    (hlen : h.length ≤ maxElementSize) :
    (match runStage "locking script"
        (do evaluate [.code Opcode.hash160, .push h, .code Opcode.equal]; checkTop)
        ⟨⟨r :: rest⟩, alt, z⟩ with
      | .error v => v
      | .ok m2 => match (Script.ofBytes r).operations with
        | .error e => .invalid ("redeem script: " ++
            (ScriptFailure.invalidRedeemScript e.message).message)
        | .ok ops => match runStage "redeem script" (do evaluate ops; checkTop) m2 with
          | .error v => v
          | .ok _ => .valid) = .valid ↔
      rest.length + 1 + alt.size < maxStackSize ∧ (Hash.hash160 r).toList = h ∧
        ∃ ops m3, (Script.ofBytes r).operations = .ok ops ∧
          (do evaluate ops; checkTop) ⟨⟨rest⟩, alt, z⟩ = .ok () m3 := by
  rw [stage_valid_iff]
  simp only [p2sh_locking_ok_iff hlen, and_assoc, exists_and_left, exists_eq_left]
  refine and_congr_right fun _ => and_congr_right fun _ => ?_
  cases hops : (Script.ofBytes r).operations with
  | error e => simp
  | ok ops => simp only [stage_valid_iff, Except.ok.injEq, exists_eq_left', and_true]

omit [Digests] in
theorem isP2sh_of_operations {h : Bytes}
    (hp : p.operations = .ok [.code Opcode.hash160, .push h, .code Opcode.equal])
    (hh : h.length = 20) : p.isP2sh = true := by
  simp [Script.isP2sh, hp, hh]

/-- With `OP_HASH160 <h> OP_EQUAL` the verdict is valid exactly when the unlocking script is
push-only and leaves a top element that hashes to `h`, with room to push `h`, and that decodes to
a redeem script running to a true top on what lies below it, with the hash the callback gives
for it. -/
theorem verifyRecorded_valid_iff_of_p2sh {h : Bytes}
    (hp : p.operations = .ok [.code Opcode.hash160, .push h, .code Opcode.equal])
    (hh : h.length = 20) :
    (verifyRecorded s p f).1 = .ok .valid ↔ s.isPushOnly = true ∧
      ∃ us, s.operations = .ok us ∧ ∃ m1, evaluate us {} = .ok () m1 ∧
      ∃ r rest, m1.stack.items = r :: rest ∧ rest.length + 1 + m1.alt.size < maxStackSize ∧
      (Hash.hash160 r).toList = h ∧
      ∃ ops z m2, (Script.ofBytes r).operations = .ok ops ∧ f (some (.ofBytes r)) = .ok z ∧
        (do evaluate ops; checkTop) ⟨⟨rest⟩, m1.alt, z⟩ = .ok () m2 := by
  have hp2sh := isP2sh_of_operations hp hh
  have hlen : h.length ≤ maxElementSize := by simp [hh, maxElementSize]
  cases hs : s.operations with
  | error e => simp [verifyRecorded_of_scriptSig_error hs]
  | ok us =>
      cases hpush : s.isPushOnly with
      | false => simp [verifyRecorded_of_not_pushOnly hs hp hp2sh hpush]
      | true =>
          rw [verifyRecorded_of_p2sh hs hp hp2sh hpush]
          simp only [Except.ok.injEq, exists_eq_left', true_and]
          cases hu : runStage "unlocking script" (evaluate us) {} with
          | error v =>
              obtain ⟨hv, hrun⟩ := runStage_of_error hu
              simp only [Except.ok.injEq, hv, false_iff, not_exists, not_and]
              intro m1 hm1
              exact absurd hm1 (hrun m1)
          | ok m1 =>
              simp only [runStage_eq_ok_iff.1 hu, EStateM.Result.ok.injEq, true_and,
                exists_eq_left']
              obtain ⟨⟨items⟩, alt, sh⟩ := m1
              cases items with
              | nil => simp [Stack.peek]
              | cons r rest =>
                  simp only [Stack.peek, List.head?, List.cons.injEq, and_assoc, exists_and_left,
                    exists_eq_left']
                  cases hf : f (some (.ofBytes r)) with
                  | error e => simp
                  | ok z =>
                      simp only [Except.ok.injEq, p2sh_verdict_valid_iff hlen, exists_and_left,
                        exists_eq_left']

theorem verifyRecorded_calls_of_p2sh (hs : s.operations = .ok us) (hp : p.operations = .ok ps)
    (hp2sh : p.isP2sh = true) (hpush : s.isPushOnly = true) {m1 : Machine} {r : Bytes}
    {rest : List Bytes} (hu : evaluate us {} = .ok () m1) (htop : m1.stack.items = r :: rest) :
    (verifyRecorded s p f).2 = [some (.ofBytes r)] := by
  rw [verifyRecorded_of_p2sh hs hp hp2sh hpush, runStage_eq_ok_iff.2 hu]
  simp only [Stack.peek, htop, List.head?]

theorem verifyRecorded_calls_of_not_pushOnly (hp2sh : p.isP2sh = true)
    (hpush : s.isPushOnly = false) : (verifyRecorded s p f).2 = [] := by
  cases hs : s.operations with
  | error e => rw [verifyRecorded_of_scriptSig_error hs]
  | ok us =>
      cases hp : p.operations with
      | error e => rw [verifyRecorded_of_scriptPubkey_error hs hp]
      | ok ps => rw [verifyRecorded_of_not_pushOnly hs hp hp2sh hpush]

/-- The outcome is an error exactly when a script does not decode or a call of the callback
fails; every other failure is an invalid verdict. -/
theorem verifyRecorded_error_iff :
    (∃ e, (verifyRecorded s p f).1 = .error e) ↔ (∃ e, s.operations = .error e) ∨
      (∃ e, p.operations = .error e) ∨ ∃ arg ∈ (verifyRecorded s p f).2, ∃ e, f arg = .error e := by
  cases hs : s.operations with
  | error e => simp [verifyRecorded_of_scriptSig_error hs]
  | ok us =>
      cases hp : p.operations with
      | error e => simp [verifyRecorded_of_scriptPubkey_error hs hp]
      | ok ps =>
          cases hp2sh : p.isP2sh with
          | false =>
              rw [verifyRecorded_of_not_p2sh hs hp hp2sh]
              cases hf : f none <;> simp [hf]
          | true =>
              cases hpush : s.isPushOnly with
              | false => simp [verifyRecorded_of_not_pushOnly hs hp hp2sh hpush]
              | true =>
                  rw [verifyRecorded_of_p2sh hs hp hp2sh hpush]
                  cases hu : runStage "unlocking script" (evaluate us) { sigHash := 0 } with
                  | error v => simp
                  | ok m1 =>
                      cases htop : m1.stack.peek with
                      | none => simp [htop]
                      | some r => cases hf : f (some (.ofBytes r)) <;> simp [htop, hf]

end Outcomes

/-- What validating returns and which calls it makes. The outcome is an error exactly when a
script does not decode or a call fails. An ordinary locking script calls back once, with no
script, and is valid exactly when both scripts run on one machine to a true top.
`OP_HASH160 <h> OP_EQUAL` is valid exactly when the unlocking script is push-only and leaves an
element that hashes to `h`, with room for pushing `h`, and that runs as the redeem script on what
lies below it; it calls back once, about that element, and never for an unlocking script that is
not push-only. -/
theorem verifyScript_errors_calls_and_verdicts [Digests] (s p : Script) (f : Option Script → Outcome Nat) :
    ((∃ e, (verifyRecorded s p f).1 = .error e) ↔ (∃ e, s.operations = .error e) ∨
      (∃ e, p.operations = .error e) ∨ ∃ arg ∈ (verifyRecorded s p f).2, ∃ e, f arg = .error e) ∧
    (∀ us ps, s.operations = .ok us → p.operations = .ok ps → p.isP2sh = false →
      (verifyRecorded s p f).2 = [none] ∧
      ((verifyRecorded s p f).1 = .ok .valid ↔ ∃ z m1 m2, f none = .ok z ∧
        evaluate us { sigHash := z } = .ok () m1 ∧ (do evaluate ps; checkTop) m1 = .ok () m2)) ∧
    (∀ h : Bytes, p.operations = .ok [.code Opcode.hash160, .push h, .code Opcode.equal] →
      h.length = 20 →
      ((verifyRecorded s p f).1 = .ok .valid ↔ s.isPushOnly = true ∧
        ∃ us, s.operations = .ok us ∧ ∃ m1, evaluate us {} = .ok () m1 ∧
        ∃ r rest, m1.stack.items = r :: rest ∧ rest.length + 1 + m1.alt.size < maxStackSize ∧
        (Hash.hash160 r).toList = h ∧
        ∃ ops z m2, (Script.ofBytes r).operations = .ok ops ∧ f (some (.ofBytes r)) = .ok z ∧
          (do evaluate ops; checkTop) ⟨⟨rest⟩, m1.alt, z⟩ = .ok () m2) ∧
      (∀ us m1 r rest, s.isPushOnly = true → s.operations = .ok us →
        evaluate us {} = .ok () m1 → m1.stack.items = r :: rest →
        (verifyRecorded s p f).2 = [some (.ofBytes r)]) ∧
      (s.isPushOnly = false → (verifyRecorded s p f).2 = [])) := by
  refine ⟨verifyRecorded_error_iff, fun us ps hs hp hnp => ⟨?_, ?_⟩, fun h hp hh => ⟨?_, ?_, ?_⟩⟩
  · rw [verifyRecorded_of_not_p2sh hs hp hnp]
  · exact verifyRecorded_valid_iff_of_not_p2sh hs hp hnp
  · exact verifyRecorded_valid_iff_of_p2sh hp hh
  · intro us m1 r rest hpush hs hu htop
    exact verifyRecorded_calls_of_p2sh hs hp (isP2sh_of_operations hp hh) hpush hu htop
  · exact verifyRecorded_calls_of_not_pushOnly (isP2sh_of_operations hp hh)

/-- Below the redeem script `r = OP_1`, 999 empty pushes meet every condition on the unlocking
script: it is push-only, leaves `r` on top, `r` hashes to the locking script's `h`, and `r` runs
to a true top on what lies below it. Yet the stacks then hold 1000 elements, the locking script's
push of `h` overflows them, and the verdict is invalid. With one empty push fewer it is valid. -/
theorem p2sh_redeem_stack_limit :
    let r : Bytes := [0x51]
    let s := Script.ofBytes (List.replicate 999 0x00 ++ [0x01, 0x51])
    let p := Script.ofBytes (0xa9 :: 0x14 :: (Hash.hash160 r).toList ++ [0x87])
    let f : Option Script → Outcome Nat := fun _ => .ok 0
    p.operations = .ok [.code Opcode.hash160, .push (Hash.hash160 r).toList, .code Opcode.equal] ∧
    s.isPushOnly = true ∧
    (∃ us, s.operations = .ok us ∧ ∃ m1, evaluate us {} = .ok () m1 ∧
      ∃ rest, m1.stack.items = r :: rest ∧
      ∃ ops z m2, (Script.ofBytes r).operations = .ok ops ∧ f (some (.ofBytes r)) = .ok z ∧
        (do evaluate ops; checkTop) ⟨⟨rest⟩, m1.alt, z⟩ = .ok () m2) ∧
    (verifyRecorded s p f).1 = .ok (.invalid "locking script: Stack size limit exceeded") ∧
    (verifyRecorded (.ofBytes (List.replicate 998 0x00 ++ [0x01, 0x51])) p f).1 = .ok .valid := by
  intro r s p f
  have hpushes : ∀ d ∈ List.replicate 999 [] ++ [r], d.length ≤ maxElementSize := by
    intro d hd
    rcases List.mem_append.1 hd with hd | hd
    · rw [(List.mem_replicate.1 hd).2]
      decide
    · rw [List.mem_singleton.1 hd]
      decide
  have hunlock := evaluate_pushes hpushes (by rw [List.length_append, List.length_replicate]; decide)
  rw [List.reverse_append, List.reverse_replicate] at hunlock
  -- `r` decodes to a push of `[1]`, which lands on the 999 empty elements and pops as true
  have hredeem : (do evaluate [.push [1]]; checkTop) ⟨⟨List.replicate 999 []⟩, {}, 0⟩ =
      .ok () ⟨⟨List.replicate 999 []⟩, {}, 0⟩ := by
    have hrun : evaluate [.push [1]] ⟨⟨List.replicate 999 []⟩, {}, 0⟩ =
        .ok () ⟨⟨[1] :: List.replicate 999 []⟩, {}, 0⟩ :=
      evaluateFrom_pushes [[1]] [] _ {} 0 (by decide) (by rw [List.length_replicate]; decide)
    rw [run_bind_of_ok hrun, checkTop_run]
  -- decoding both scripts and both verdicts, evaluated at once
  obtain ⟨hp, hpush, hs, hr, hfull, hroom⟩ :
      p.operations = .ok [.code Opcode.hash160, .push (Hash.hash160 r).toList,
        .code Opcode.equal] ∧ s.isPushOnly = true ∧
      s.operations = .ok ((List.replicate 999 [] ++ [r]).map .push) ∧
      (Script.ofBytes r).operations = .ok [.push [1]] ∧
      (verifyRecorded s p f).1 = .ok (.invalid "locking script: Stack size limit exceeded") ∧
      (verifyRecorded (.ofBytes (List.replicate 998 0x00 ++ [0x01, 0x51])) p f).1 =
        .ok .valid := by
    decide +kernel
  exact ⟨hp, hpush, ⟨_, hs, _, hunlock, List.replicate 999 [], rfl, _, 0, _, hr, rfl, hredeem⟩,
    hfull, hroom⟩

end Bitcoin
