import Bitcoin.Script.Interpreter
import Bitcoin.Proofs.Wire.Decode

/-! # Running operations step by step

What one operation does where every open condition holds: a push of at most 520 bytes puts its
data on the main stack, and an opcode with an action runs it and goes on when the action
succeeds. A run of operations takes one such step at a time, checking the stack limit after each.
-/

namespace Bitcoin

theorem get_run (m : Machine) : (get : Run Machine) m = .ok m m := rfl

@[simp] theorem Machine.depth_mk (items : List Bytes) (alt : Stack) (z : Nat) :
    (⟨⟨items⟩, alt, z⟩ : Machine).depth = items.length + alt.size := rfl

variable [Digests] {conds conds' : List Bool} {m m' : Machine}

theorem evaluateFrom_nil_run (m : Machine) : evaluateFrom [] [] m = .ok () m := rfl

theorem evaluateFrom_cons_run {op : Operation} {ops : List Operation}
    (hstep : stepOperation op conds m = .ok conds' m') (hdepth : m'.depth ≤ maxStackSize) :
    evaluateFrom (op :: ops) conds m = evaluateFrom ops conds' m' := by
  rw [evaluateFrom, run_bind_of_ok hstep,
    run_bind_of_ok (get_run m')]
  dsimp only
  rw [if_neg (Nat.not_lt.2 hdepth)]

theorem evaluateFrom_cons_overflow {op : Operation} {ops : List Operation}
    (hstep : stepOperation op conds m = .ok conds' m') (hdepth : maxStackSize < m'.depth) :
    evaluateFrom (op :: ops) conds m = .error .stackOverflow m' := by
  rw [evaluateFrom, run_bind_of_ok hstep,
    run_bind_of_ok (get_run m')]
  dsimp only
  rw [if_pos hdepth]
  rfl

theorem stepOperation_push_run {data : Bytes} (hexec : conds.all id = true)
    (hlen : data.length ≤ maxElementSize) (m : Machine) :
    stepOperation (.push data) conds m = .ok conds { m with stack := m.stack.push data } := by
  simp only [stepOperation, hexec]
  rw [if_neg (Nat.not_lt.2 hlen), if_pos trivial]
  rfl

theorem stepOperation_action_run {c : UInt8} {a : Action} (hexec : conds.all id = true)
    (hc : Semantics.action? c = some a) (ha : a m = (true, m')) :
    stepOperation (.code c) conds m = .ok conds m' := by
  -- the branch opcodes have no action, so `c` is none of them
  have hver : ¬(c = Opcode.verIf ∨ c = Opcode.verNotIf) := by
    rintro (rfl | rfl) <;> exact nomatch hc
  have hif : ¬(c = Opcode.ifTrue ∨ c = Opcode.ifFalse) := by
    rintro (rfl | rfl) <;> exact nomatch hc
  have helse : c ≠ Opcode.elseBranch := by
    rintro rfl
    exact nomatch hc
  have hend : c ≠ Opcode.endIf := by
    rintro rfl
    exact nomatch hc
  have hact : Run.act a m = .ok true m' := by
    show EStateM.modifyGet (fun m => (a m)) m = _
    simp only [EStateM.modifyGet, ha]
  simp only [stepOperation, hexec, if_neg hver, if_neg hif, if_neg helse, if_neg hend,
    Bool.not_true, Bool.false_eq_true, if_false, hc]
  rw [run_bind_of_ok hact]
  rfl

/-- Running pushes puts their data on the stack, the last on top, and goes on with the rest. -/
theorem evaluateFrom_pushes (ds : List Bytes) (ops : List Operation) (items : List Bytes)
    (alt : Stack) (z : Nat) (hlen : ∀ d ∈ ds, d.length ≤ maxElementSize)
    (hdepth : ds.length + items.length + alt.size ≤ maxStackSize) :
    evaluateFrom (ds.map .push ++ ops) [] ⟨⟨items⟩, alt, z⟩ =
      evaluateFrom ops [] ⟨⟨ds.reverse ++ items⟩, alt, z⟩ := by
  induction ds generalizing items with
  | nil => rfl
  | cons d ds ih =>
      rw [List.map_cons, List.cons_append, evaluateFrom_cons_run
        (stepOperation_push_run rfl (hlen d List.mem_cons_self) _)
        (by simp only [Stack.push, Machine.depth_mk, List.length_cons] at hdepth ⊢; omega)]
      have hrest := ih (d :: items) (fun x hx => hlen x (List.mem_cons_of_mem d hx))
        (by simp only [List.length_cons] at hdepth ⊢; omega)
      rw [List.reverse_cons, List.append_assoc, List.singleton_append, ← hrest]
      rfl

theorem evaluate_pushes {ds : List Bytes} (hlen : ∀ d ∈ ds, d.length ≤ maxElementSize)
    (hdepth : ds.length ≤ maxStackSize) :
    evaluate (ds.map .push) {} = .ok () ⟨⟨ds.reverse⟩, {}, 0⟩ := by
  rw [evaluate, ← List.append_nil (List.map _ _), ← List.append_nil ds.reverse]
  exact evaluateFrom_pushes ds [] [] {} 0 hlen (by simpa [Stack.size] using hdepth)

end Bitcoin
