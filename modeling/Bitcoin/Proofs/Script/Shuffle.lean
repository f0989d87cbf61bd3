import Bitcoin.Proofs.Script.Arith

/-! # The stack opcodes move exactly what they name

Each stack opcode is given by a list equation over the tops of the two stacks
(`StackOp.reference`, both stacks listed top first): what it reads, what it puts back, and that
everything below is left as it was. Every opcode runs exactly its equation, and fails on exactly
the stacks the equation does not fit (`StackOp.action_spec`): too few elements, or for `OP_PICK`
and `OP_ROLL` a depth that is not a small number naming an element of the rest of the stack.
-/

namespace Bitcoin

/-- The stack opcodes. -/
inductive StackOp where
  | twoDrop | twoDup | threeDup | twoOver | twoRot | twoSwap | ifDup | depth | drop | dup
  | nip | «over» | pick | roll | rot | swap | tuck | size | toAltStack | fromAltStack
  deriving DecidableEq, Repr

namespace StackOp

def code : StackOp → UInt8
  | twoDrop => 0x6d | twoDup => 0x6e | threeDup => 0x6f | twoOver => 0x70 | twoRot => 0x71
  | twoSwap => 0x72 | ifDup => 0x73 | depth => 0x74 | drop => 0x75 | dup => 0x76 | nip => 0x77
  | «over» => 0x78 | pick => 0x79 | roll => 0x7a | rot => 0x7b | swap => 0x7c | tuck => 0x7d
  | size => 0x82 | toAltStack => 0x6b | fromAltStack => 0x6c

/-- The number of elements the opcode reads: from the alternate stack for `OP_FROMALTSTACK`,
else from the main stack, the depth operand of `OP_PICK` and `OP_ROLL` included. -/
def arity : StackOp → Nat
  | depth => 0
  | ifDup | drop | dup | pick | roll | size | toAltStack | fromAltStack => 1
  | twoDrop | twoDup | nip | «over» | swap | tuck => 2
  | threeDup | rot => 3
  | twoOver | twoSwap => 4
  | twoRot => 6

/-- The depth that an operand of `OP_PICK` or `OP_ROLL` names: a number of at most four bytes
that is not negative. -/
def depthOperand (e : Bytes) : Option Nat :=
  if e.length ≤ 4 ∧ 0 ≤ (ScriptNum.decode e).toInt then some (ScriptNum.decode e).toInt.toNat
  else none

/-- What the opcode makes of the main and alternate stacks, both listed top first, or `none`
when they do not fit it. -/
def reference : StackOp → List Bytes → List Bytes → Option (List Bytes × List Bytes)
  | twoDrop, _ :: _ :: s, a => some (s, a)
  | twoDup, x2 :: x1 :: s, a => some (x2 :: x1 :: x2 :: x1 :: s, a)
  | threeDup, x3 :: x2 :: x1 :: s, a => some (x3 :: x2 :: x1 :: x3 :: x2 :: x1 :: s, a)
  | twoOver, x4 :: x3 :: x2 :: x1 :: s, a => some (x2 :: x1 :: x4 :: x3 :: x2 :: x1 :: s, a)
  | twoRot, x6 :: x5 :: x4 :: x3 :: x2 :: x1 :: s, a =>
    some (x2 :: x1 :: x6 :: x5 :: x4 :: x3 :: s, a)
  | twoSwap, x4 :: x3 :: x2 :: x1 :: s, a => some (x2 :: x1 :: x4 :: x3 :: s, a)
  | ifDup, x :: s, a => some (if ScriptNum.isTrue x then x :: x :: s else x :: s, a)
  | depth, s, a => some (ScriptNum.encode s.length.toInt64 :: s, a)
  | drop, _ :: s, a => some (s, a)
  | dup, x :: s, a => some (x :: x :: s, a)
  | nip, x2 :: _ :: s, a => some (x2 :: s, a)
  | «over», x2 :: x1 :: s, a => some (x1 :: x2 :: x1 :: s, a)
  | pick, e :: s, a => do
    let n ← depthOperand e
    let x :: _ := s.drop n | none
    return (x :: s, a)
  | roll, e :: s, a => do
    let n ← depthOperand e
    let x :: below := s.drop n | none
    return (x :: (s.take n ++ below), a)
  | rot, x3 :: x2 :: x1 :: s, a => some (x1 :: x3 :: x2 :: s, a)
  | swap, x2 :: x1 :: s, a => some (x1 :: x2 :: s, a)
  | tuck, x2 :: x1 :: s, a => some (x2 :: x1 :: x2 :: s, a)
  | size, x :: s, a => some (ScriptNum.encode x.length.toInt64 :: x :: s, a)
  | toAltStack, x :: s, a => some (s, x :: a)
  | fromAltStack, s, x :: a => some (x :: s, a)
  | _, _, _ => none

/-- The stack the opcode reads holds its operands, and the depth operand of `OP_PICK` or
`OP_ROLL` names an element of the rest of the main stack. -/
def Ready (op : StackOp) (main alt : List Bytes) : Prop :=
  op.arity ≤ (if op = fromAltStack then alt else main).length ∧
    (op = pick ∨ op = roll → ∃ e s, main = e :: s ∧ e.length ≤ 4 ∧
      0 ≤ (ScriptNum.decode e).toInt ∧ (ScriptNum.decode e).toInt < s.length)

/-- `act` runs the equation of `op` on `m`: it succeeds with the stacks the equation gives, and
fails where the equation does not fit. -/
def Runs (act : Action) (op : StackOp) (m : Machine) : Prop :=
  match op.reference m.stack.items m.alt.items with
  | some (main, alt) => act m = (true, { m with stack := ⟨main⟩, alt := ⟨alt⟩ })
  | none => (act m).1 = false

end StackOp

namespace Machine

variable {alt : Stack} {z : Nat}

open Semantics

theorem pushAll_run (xs : List Bytes) (m : Machine) :
    pushAll xs m = ((), { m with stack := ⟨xs.reverse ++ m.stack.items⟩ }) := by
  induction xs generalizing m with
  | nil => rfl
  | cons x xs ih =>
    show pushAll xs { m with stack := m.stack.push x } = _
    rw [ih]
    simp [Stack.push]

theorem stateM_map_run {α β : Type} {x : StateM Machine α} {f : α → β} {m m' : Machine} {a : α}
    (h : x m = (a, m')) : (f <$> x) m = (f a, m') := by
  show StateT.map f x m = _
  simp only [StateT.map, h]
  rfl

theorem copyFromDepths_single {s : List Bytes} {n : Nat} (hn : n < s.length) :
    copyFromDepths [n] ⟨⟨s⟩, alt, z⟩ = (true, ⟨⟨s[n] :: s⟩, alt, z⟩) := by
  have hpeek : [n].mapM (Stack.peekAt ⟨s⟩) = some [s[n]] := by simp [Stack.peekAt, hn]
  rw [copyFromDepths, stateM_bind_run (rfl : (get : StateM Machine Machine) ⟨⟨s⟩, alt, z⟩ = _)]
  dsimp only
  rw [hpeek]
  dsimp only
  rw [stateM_bind_run (pushAll_run _ _)]
  rfl

theorem removeAt_run {s : List Bytes} {n : Nat} (hn : n < s.length) :
    removeAt n ⟨⟨s⟩, alt, z⟩ = (some s[n], ⟨⟨s.eraseIdx n⟩, alt, z⟩) := by
  have hremove : Stack.removeAt ⟨s⟩ n = (some s[n], ⟨s.eraseIdx n⟩) := by
    simp [Stack.removeAt, hn]
  show ((Stack.removeAt ⟨s⟩ n).1,
    ({ stack := (Stack.removeAt ⟨s⟩ n).2, alt, sigHash := z } : Machine)) = _
  rw [hremove]

theorem moveToTop_single {s : List Bytes} {n : Nat} (hn : n < s.length) :
    moveToTop [n] ⟨⟨s⟩, alt, z⟩ = (true, ⟨⟨s[n] :: s.eraseIdx n⟩, alt, z⟩) := by
  have hsize : ¬(⟨⟨s⟩, alt, z⟩ : Machine).stack.size ≤ [n].foldl max 0 := by
    simp [Stack.size]
    omega
  have hremove : removeEach [n] ⟨⟨s⟩, alt, z⟩ = (some [s[n]], ⟨⟨s.eraseIdx n⟩, alt, z⟩) := by
    rw [removeEach, stateM_bind_run (removeAt_run hn)]
    rfl
  rw [moveToTop, stateM_bind_run (size_run _)]
  dsimp only
  rw [if_neg hsize, stateM_bind_run hremove]
  show ((fun _ => true) <$> pushAll [s[n]]) _ = _
  rw [stateM_map_run (pushAll_run _ _)]
  rfl

theorem ifDup_run (x : Bytes) (s : List Bytes) :
    ifDup ⟨⟨x :: s⟩, alt, z⟩ =
      (true, ⟨⟨if ScriptNum.isTrue x then x :: x :: s else x :: s⟩, alt, z⟩) := by
  show (if ScriptNum.isTrue x then (fun _ => true) <$> push x else pure true : Action)
    ⟨⟨x :: s⟩, alt, z⟩ = _
  cases ScriptNum.isTrue x <;> rfl

theorem filter_depthOperand {e : Bytes} (he : e.length ≤ 4) (k : Nat) :
    (StackOp.depthOperand e).filter (· < k) =
      if ScriptNum.decode e < 0 ∨ (ScriptNum.decode e).toInt.toNat ≥ k then none
      else some (ScriptNum.decode e).toInt.toNat := by
  have hneg : ScriptNum.decode e < 0 ↔ ¬0 ≤ (ScriptNum.decode e).toInt := by
    rw [Int64.lt_iff_toInt_lt, Int64.toInt_zero, not_le]
  by_cases hpos : 0 ≤ (ScriptNum.decode e).toInt
  · have hd : StackOp.depthOperand e = some (ScriptNum.decode e).toInt.toNat := if_pos ⟨he, hpos⟩
    rw [hd, Option.filter_some]
    by_cases hlt : (ScriptNum.decode e).toInt.toNat < k
    · rw [if_pos (decide_eq_true hlt), if_neg (not_or.2 ⟨fun h => hneg.1 h hpos, by omega⟩)]
    · rw [if_neg (by simpa using hlt), if_pos (Or.inr (by omega))]
  · have hd : StackOp.depthOperand e = none := if_neg fun h => hpos h.2
    rw [hd, Option.filter_none, if_pos (Or.inl (hneg.2 hpos))]

theorem popDepth_run (e : Bytes) (s : List Bytes) :
    popDepth ⟨⟨e :: s⟩, alt, z⟩ =
      ((StackOp.depthOperand e).filter (· < s.length), ⟨⟨s⟩, alt, z⟩) := by
  rw [popDepth, stateM_bind_run (popNum_cons e s)]
  by_cases he : e.length ≤ 4
  · rw [if_pos he, filter_depthOperand he]
    dsimp only
    rw [stateM_bind_run (size_run _)]
    dsimp only
    -- the machine compares against the stack's size, the filter against the list's length
    by_cases hc : ScriptNum.decode e < 0 ∨ (ScriptNum.decode e).toInt.toNat ≥ s.length
    · rw [if_pos hc, if_pos (show _ ∨ _ ≥ (⟨s⟩ : Stack).size from hc)]
      rfl
    · rw [if_neg hc, if_neg (show ¬(_ ∨ _ ≥ (⟨s⟩ : Stack).size) from hc)]
      rfl
  · rw [if_neg he]
    simp [StackOp.depthOperand, he]
    rfl

end Machine

namespace StackOp

open Semantics

section Reference

variable {op : StackOp} {act : Action} {m : Machine}

theorem Runs.of_some {main alt : List Bytes}
    (h : op.reference m.stack.items m.alt.items = some (main, alt))
    (hact : act m = (true, { m with stack := ⟨main⟩, alt := ⟨alt⟩ })) : Runs act op m := by
  unfold Runs
  rw [h]
  exact hact

theorem Runs.of_none (h : op.reference m.stack.items m.alt.items = none)
    (hact : (act m).1 = false) : Runs act op m := by
  unfold Runs
  rw [h]
  exact hact

theorem depthOperand_eq_some {e : Bytes} {n : Nat} :
    depthOperand e = some n ↔
      e.length ≤ 4 ∧ 0 ≤ (ScriptNum.decode e).toInt ∧ (ScriptNum.decode e).toInt.toNat = n := by
  by_cases h : e.length ≤ 4 ∧ 0 ≤ (ScriptNum.decode e).toInt
  · simp [depthOperand, h]
  · simp only [depthOperand, if_neg h, reduceCtorEq, false_iff]
    exact fun ⟨h1, h2, _⟩ => h ⟨h1, h2⟩

end Reference

section Depth

variable {op : StackOp} {main alt : List Bytes} {e : Bytes} {s a : List Bytes} {n : Nat}

-- `reference` is opened by `delta` and `dsimp`: its equation lemmas, with the catch-all case
-- split against every other, are costly to build
theorem reference_pick_cons :
    reference pick (e :: s) a =
      (depthOperand e).bind fun n => (s.drop n).head?.map fun x => (x :: s, a) := by
  delta reference
  dsimp only
  cases depthOperand e with
  | none => rfl
  | some n =>
    simp only [Option.bind_eq_bind, Option.bind_some]
    cases s.drop n <;> rfl

theorem reference_roll_cons :
    reference roll (e :: s) a =
      (depthOperand e).bind fun n =>
        (s.drop n).head?.map fun x => (x :: (s.take n ++ s.drop (n + 1)), a) := by
  delta reference
  dsimp only
  cases depthOperand e with
  | none => rfl
  | some n =>
    simp only [Option.bind_eq_bind, Option.bind_some]
    rw [← List.drop_drop, List.drop_one]
    cases s.drop n <;> rfl

theorem isSome_reference_depth (hop : op = pick ∨ op = roll) :
    (op.reference (e :: s) a).isSome ↔ ∃ n, depthOperand e = some n ∧ n < s.length := by
  rcases hop with rfl | rfl
  · rw [reference_pick_cons]
    cases depthOperand e <;> simp
  · rw [reference_roll_cons]
    cases depthOperand e <;> simp

theorem ready_depth_iff (hop : op = pick ∨ op = roll) :
    op.Ready (e :: s) a ↔ ∃ n, depthOperand e = some n ∧ n < s.length := by
  have hne : op ≠ fromAltStack := by rcases hop with rfl | rfl <;> decide
  have harity : op.arity = 1 := by rcases hop with rfl | rfl <;> rfl
  simp only [Ready, harity, hne, if_false, hop, true_implies, depthOperand_eq_some]
  constructor
  · rintro ⟨_, e', s', he, hlen, hpos, hlt⟩
    obtain ⟨rfl, rfl⟩ := List.cons.inj he
    exact ⟨_, ⟨hlen, hpos, rfl⟩, by omega⟩
  · rintro ⟨n, ⟨hlen, hpos, rfl⟩, hlt⟩
    exact ⟨by simp, e, s, rfl, hlen, hpos, by omega⟩

end Depth

theorem runs_pick (m : Machine) : Runs Semantics.pick pick m := by
  obtain ⟨⟨items⟩, alt, z⟩ := m
  cases items with
  | nil => rfl
  | cons e s =>
    cases hd : depthOperand e with
    | none =>
      refine Runs.of_none (by rw [reference_pick_cons, hd]; rfl) ?_
      rw [Semantics.pick, stateM_bind_run (Machine.popDepth_run e s), hd]
      rfl
    | some n =>
      by_cases hn : n < s.length
      · refine Runs.of_some
          (by rw [reference_pick_cons, hd, Option.bind_some, List.drop_eq_getElem_cons hn]; rfl) ?_
        rw [Semantics.pick, stateM_bind_run (Machine.popDepth_run e s), hd, Option.filter_some,
          if_pos (by simpa using hn)]
        exact Machine.copyFromDepths_single hn
      · refine Runs.of_none
          (by rw [reference_pick_cons, hd, Option.bind_some, List.drop_eq_nil_of_le (not_lt.1 hn)]
              rfl) ?_
        rw [Semantics.pick, stateM_bind_run (Machine.popDepth_run e s), hd, Option.filter_some,
          if_neg (by simpa using hn)]
        rfl

theorem runs_roll (m : Machine) : Runs Semantics.roll roll m := by
  obtain ⟨⟨items⟩, alt, z⟩ := m
  cases items with
  | nil => rfl
  | cons e s =>
    cases hd : depthOperand e with
    | none =>
      refine Runs.of_none (by rw [reference_roll_cons, hd]; rfl) ?_
      rw [Semantics.roll, stateM_bind_run (Machine.popDepth_run e s), hd]
      rfl
    | some n =>
      by_cases hn : n < s.length
      · refine Runs.of_some
          (by rw [reference_roll_cons, hd, Option.bind_some, List.drop_eq_getElem_cons hn]; rfl) ?_
        rw [Semantics.roll, stateM_bind_run (Machine.popDepth_run e s), hd, Option.filter_some,
          if_pos (by simpa using hn), ← List.eraseIdx_eq_take_drop_succ]
        exact Machine.moveToTop_single hn
      · refine Runs.of_none
          (by rw [reference_roll_cons, hd, Option.bind_some, List.drop_eq_nil_of_le (not_lt.1 hn)]
              rfl) ?_
        rw [Semantics.roll, stateM_bind_run (Machine.popDepth_run e s), hd, Option.filter_some,
          if_neg (by simpa using hn)]
        rfl

/-- Every stack opcode's action runs its equation. Apart from `OP_PICK` and `OP_ROLL`, each is
run on every shape of stack up to its arity, the rest of the stack left a variable. -/
theorem exists_runs [Digests] : ∀ op : StackOp, ∃ act, action? op.code = some act ∧ ∀ m, Runs act op m
  | twoDrop => ⟨_, rfl, by rintro ⟨⟨_ | ⟨x2, _ | ⟨x1, s⟩⟩⟩, alt, z⟩ <;> rfl⟩
  | twoDup => ⟨_, rfl, by rintro ⟨⟨_ | ⟨x2, _ | ⟨x1, s⟩⟩⟩, alt, z⟩ <;> rfl⟩
  | threeDup => ⟨_, rfl, by rintro ⟨⟨_ | ⟨x3, _ | ⟨x2, _ | ⟨x1, s⟩⟩⟩⟩, alt, z⟩ <;> rfl⟩
  | twoOver => ⟨_, rfl, by
      rintro ⟨⟨_ | ⟨x4, _ | ⟨x3, _ | ⟨x2, _ | ⟨x1, s⟩⟩⟩⟩⟩, alt, z⟩ <;> rfl⟩
  | twoRot => ⟨_, rfl, by
      rintro ⟨⟨_ | ⟨x6, _ | ⟨x5, _ | ⟨x4, _ | ⟨x3, _ | ⟨x2, _ | ⟨x1, s⟩⟩⟩⟩⟩⟩⟩, alt, z⟩ <;> rfl⟩
  | twoSwap => ⟨_, rfl, by
      rintro ⟨⟨_ | ⟨x4, _ | ⟨x3, _ | ⟨x2, _ | ⟨x1, s⟩⟩⟩⟩⟩, alt, z⟩ <;> rfl⟩
  | ifDup => ⟨_, rfl, by
      rintro ⟨⟨_ | ⟨x, s⟩⟩, alt, z⟩
      · rfl
      · exact Runs.of_some rfl (Machine.ifDup_run x s)⟩
  | depth => ⟨_, rfl, fun _ => rfl⟩
  | drop => ⟨_, rfl, by rintro ⟨⟨_ | ⟨x, s⟩⟩, alt, z⟩ <;> rfl⟩
  | dup => ⟨_, rfl, by rintro ⟨⟨_ | ⟨x, s⟩⟩, alt, z⟩ <;> rfl⟩
  | nip => ⟨_, rfl, by rintro ⟨⟨_ | ⟨x2, _ | ⟨x1, s⟩⟩⟩, alt, z⟩ <;> rfl⟩
  | «over» => ⟨_, rfl, by rintro ⟨⟨_ | ⟨x2, _ | ⟨x1, s⟩⟩⟩, alt, z⟩ <;> rfl⟩
  | pick => ⟨_, rfl, runs_pick⟩
  | roll => ⟨_, rfl, runs_roll⟩
  | rot => ⟨_, rfl, by rintro ⟨⟨_ | ⟨x3, _ | ⟨x2, _ | ⟨x1, s⟩⟩⟩⟩, alt, z⟩ <;> rfl⟩
  | swap => ⟨_, rfl, by rintro ⟨⟨_ | ⟨x2, _ | ⟨x1, s⟩⟩⟩, alt, z⟩ <;> rfl⟩
  | tuck => ⟨_, rfl, by rintro ⟨⟨_ | ⟨x2, _ | ⟨x1, s⟩⟩⟩, alt, z⟩ <;> rfl⟩
  | size => ⟨_, rfl, by rintro ⟨⟨_ | ⟨x, s⟩⟩, alt, z⟩ <;> rfl⟩
  | toAltStack => ⟨_, rfl, by rintro ⟨⟨_ | ⟨x, s⟩⟩, alt, z⟩ <;> rfl⟩
  | fromAltStack => ⟨_, rfl, by rintro ⟨main, ⟨_ | ⟨x, a⟩⟩, z⟩ <;> rfl⟩

theorem isSome_iff_of_eq_decide {o : Option (List Bytes × List Bytes)} {p : Prop} [Decidable p]
    (h : o.isSome = decide p) : o.isSome ↔ p := by
  rw [h, decide_eq_true_iff]

theorem ready_iff_of_main (hop : op ≠ pick ∧ op ≠ roll ∧ op ≠ fromAltStack) :
    op.Ready main alt ↔ op.arity ≤ main.length := by
  simp [Ready, hop.1, hop.2.1, hop.2.2]

theorem isSome_reference_iff (op : StackOp) (main alt : List Bytes) :
    (op.reference main alt).isSome ↔ op.Ready main alt := by
  cases op
  case pick | roll =>
    rcases main with _ | ⟨e, s⟩
    · simp [Ready, arity]
      rfl
    · exact (isSome_reference_depth (by simp)).trans (ready_depth_iff (by simp)).symm
  case fromAltStack =>
    rcases alt with _ | ⟨x, a⟩ <;> simp [Ready, arity] <;> rfl
  -- every other equation reads the main stack alone, at most six elements deep; on each shape
  -- both the equation and the length test compute
  all_goals
    refine (isSome_iff_of_eq_decide ?_).trans (ready_iff_of_main (by decide)).symm
    rcases main with _ | ⟨_, _ | ⟨_, _ | ⟨_, _ | ⟨_, _ | ⟨_, _ | ⟨_, s⟩⟩⟩⟩⟩⟩ <;> rfl

/-- The stack opcodes do exactly what their equations say. Each succeeds exactly when the stack
it reads (the alternate stack for `OP_FROMALTSTACK`) holds its operands and, for `OP_PICK` and
`OP_ROLL`, the popped depth is a number of at most four bytes within the rest of the stack; it
then leaves the two stacks its equation gives, everything below its operands untouched. -/
theorem action_spec [Digests] (op : StackOp) (m : Machine) :
    ∃ act, action? op.code = some act ∧
      ((act m).1 = true ↔ op.Ready m.stack.items m.alt.items) ∧
      (op.Ready m.stack.items m.alt.items → ∃ main alt,
        op.reference m.stack.items m.alt.items = some (main, alt) ∧
        act m = (true, { m with stack := ⟨main⟩, alt := ⟨alt⟩ })) := by
  obtain ⟨act, hcode, hruns⟩ := exists_runs op
  refine ⟨act, hcode, ?_⟩
  have hready := isSome_reference_iff op m.stack.items m.alt.items
  have hrun := hruns m
  unfold Runs at hrun
  cases href : op.reference m.stack.items m.alt.items with
  | none =>
    rw [href] at hrun hready
    have hnot : ¬op.Ready m.stack.items m.alt.items := by simpa using hready
    exact ⟨by simp [hrun, hnot], fun h => absurd h hnot⟩
  | some r =>
    obtain ⟨main, alt⟩ := r
    rw [href] at hrun hready
    have hyes : op.Ready m.stack.items m.alt.items := by simpa using hready
    exact ⟨by simp [hrun, hyes], fun _ => ⟨main, alt, rfl, hrun⟩⟩

end StackOp

end Bitcoin
