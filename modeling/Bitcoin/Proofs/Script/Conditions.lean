import Bitcoin.Proofs.Script.Blocks
import Bitcoin.Proofs.Script.Run

/-! # The condition flags run scripts as nested blocks

`evaluate` builds no blocks: it keeps one flag per open branch and executes an operation when
every flag holds. From a machine within the stack limit it still runs every operation list as
`Parsed.run` runs it read into blocks, with the same outcome and the same machine. The proof is
one mutual induction over the blocks under a false flag (`runOps_skipList`) and one under true
flags (`runOps_runList`), built on one lemma per kind of step.
-/

namespace Bitcoin

/-- Operations run in order under the open flags, with the stack limit checked after each; the
flags left open. -/
def runOps [Digests] : List Operation → List Bool → Run (List Bool)
  | [], conds => pure conds
  | op :: ops, conds => do
    let conds ← stepOperation op conds
    Block.checkLimit
    runOps ops conds

def closedAll (conds : List Bool) : Run Unit :=
  if conds.isEmpty then pure () else throw .unbalancedConditional

theorem closedAll_of_ne_nil {conds : List Bool} (h : conds ≠ []) :
    closedAll conds = throw .unbalancedConditional := by
  simp [closedAll, List.isEmpty_iff, h]

variable {conds : List Bool} {m : Machine}

theorem runOps_append [Digests] (xs ys : List Operation) (conds : List Bool) :
    runOps (xs ++ ys) conds = runOps xs conds >>= runOps ys := by
  induction xs generalizing conds with
  | nil => simp [runOps]
  | cons op xs ih => simp only [List.cons_append, runOps, ih, bind_assoc]

theorem evaluateFrom_eq_runOps [Digests] (ops : List Operation) (conds : List Bool) :
    evaluateFrom ops conds = runOps ops conds >>= closedAll := by
  induction ops generalizing conds with
  | nil => simp [evaluateFrom, runOps, closedAll]
  | cons op ops ih =>
      simp only [evaluateFrom, runOps, ih, bind_assoc, Block.checkLimit]
      congr 1
      funext c
      congr 1
      funext s
      split <;> simp

/-! ## One step of the flags -/

section Step

variable [Digests] {c : UInt8} {alt : Stack} {z : Nat}

omit [Digests] in
theorem not_verIf_of_isIf (hc : c = Opcode.ifTrue ∨ c = Opcode.ifFalse) :
    ¬(c = Opcode.verIf ∨ c = Opcode.verNotIf) := by
  rcases hc with rfl | rfl <;> decide

theorem stepOperation_if_dead (hc : c = Opcode.ifTrue ∨ c = Opcode.ifFalse)
    (hdead : conds.all id = false) : stepOperation (.code c) conds = pure (false :: conds) := by
  simp only [stepOperation, if_neg (not_verIf_of_isIf hc), if_pos hc, hdead]
  rfl

theorem stepOperation_if_empty (hc : c = Opcode.ifTrue ∨ c = Opcode.ifFalse)
    (hlive : conds.all id = true) :
    stepOperation (.code c) conds ⟨⟨[]⟩, alt, z⟩ =
      .error (.stackUnderflow (Opcode.name c)) ⟨⟨[]⟩, alt, z⟩ := by
  simp only [stepOperation, if_neg (not_verIf_of_isIf hc), if_pos hc, hlive]
  rfl

theorem stepOperation_if_top {top : Bytes} {rest : List Bytes}
    (hc : c = Opcode.ifTrue ∨ c = Opcode.ifFalse) (hlive : conds.all id = true) :
    stepOperation (.code c) conds ⟨⟨top :: rest⟩, alt, z⟩ =
      .ok ((ScriptNum.isTrue top == (c = Opcode.ifTrue)) :: conds) ⟨⟨rest⟩, alt, z⟩ := by
  simp only [stepOperation, if_neg (not_verIf_of_isIf hc), if_pos hc, hlive]
  rfl

theorem stepOperation_else (b : Bool) :
    stepOperation (.code Opcode.elseBranch) (b :: conds) = pure ((!b) :: conds) := by
  simp only [stepOperation]
  rfl

theorem stepOperation_endIf (b : Bool) :
    stepOperation (.code Opcode.endIf) (b :: conds) = pure conds := by
  simp only [stepOperation]
  rfl

theorem stepOperation_stray (hc : c = Opcode.elseBranch ∨ c = Opcode.endIf) :
    stepOperation (.code c) [] = throw .unbalancedConditional := by
  rcases hc with rfl | rfl <;> rfl

theorem stepOperation_skip {o : Operation} (h : o.isBranch = false)
    (hdead : conds.all id = false) :
    stepOperation o conds = (Block.op o h).skip >>= fun _ => pure conds := by
  cases o with
  | push data =>
      simp only [stepOperation, Block.skip, hdead]
      split <;> rfl
  | code c =>
      obtain ⟨hIf, hElse, hEnd⟩ := Operation.isBranch_code_eq_false.1 h
      simp only [stepOperation, Block.skip, if_neg hIf, if_neg hElse, if_neg hEnd, hdead]
      split <;> rfl

theorem stepOperation_execute {o : Operation} (h : o.isBranch = false)
    (hlive : conds.all id = true) :
    stepOperation o conds = Block.execute o >>= fun _ => pure conds := by
  cases o with
  | push data =>
      simp only [stepOperation, Block.execute, hlive]
      split <;> rfl
  | code c =>
      obtain ⟨hIf, hElse, hEnd⟩ := Operation.isBranch_code_eq_false.1 h
      simp only [stepOperation, Block.execute, if_neg hIf, if_neg hElse, if_neg hEnd, hlive,
        Bool.not_true, Bool.false_eq_true, if_false]
      split
      · rfl
      · cases Semantics.action? c with
        | none => rfl
        | some a =>
            simp only [bind_assoc]
            congr 1
            funext b
            cases b <;> rfl

end Step

/-! ## Runs within the stack limit -/

section Limit

variable {α β : Type}

/-- A run that, started within the stack limit, ends within it when it succeeds. -/
def KeepsLimit (x : Run α) : Prop :=
  ∀ ⦃m a m'⦄, m.depth ≤ maxStackSize → x m = .ok a m' → m'.depth ≤ maxStackSize

theorem bind_run_eq {x y : Run α} {f : α → Run β} (h : x m = y m) : (x >>= f) m = (y >>= f) m := by
  show EStateM.bind x f m = EStateM.bind y f m
  simp only [EStateM.bind, h]

theorem bind_congr_of_keepsLimit {x : Run α} {f g : α → Run β} (hx : KeepsLimit x)
    (hm : m.depth ≤ maxStackSize) (h : ∀ a m', m'.depth ≤ maxStackSize → f a m' = g a m') :
    (x >>= f) m = (x >>= g) m := by
  cases hxm : x m with
  | ok a m' => rw [run_bind_of_ok hxm, run_bind_of_ok hxm, h a m' (hx hm hxm)]
  | error e m' => rw [run_bind_of_error hxm, run_bind_of_error hxm]

namespace KeepsLimit

theorem pure' (a : α) : KeepsLimit (pure a : Run α) := by
  intro m b m' hm h
  cases h
  exact hm

theorem throw' (e : ScriptFailure) : KeepsLimit (throw e : Run α) := by
  intro m b m' _ h
  exact nomatch h

theorem bind {x : Run α} {f : α → Run β} (hx : KeepsLimit x) (hf : ∀ a, KeepsLimit (f a)) :
    KeepsLimit (x >>= f) := by
  intro m b m'' hm h
  cases hxm : x m with
  | ok a m' =>
      rw [run_bind_of_ok hxm] at h
      exact hf a (hx hm hxm) h
  | error e m' =>
      rw [run_bind_of_error hxm] at h
      exact nomatch h

theorem ite' {p : Prop} [Decidable p] {x y : Run α} (hx : KeepsLimit x) (hy : KeepsLimit y) :
    KeepsLimit (if p then x else y) := by
  split
  · exact hx
  · exact hy

end KeepsLimit

theorem checkLimit_bind (hm : m.depth ≤ maxStackSize) (f : Unit → Run α) :
    (Block.checkLimit >>= f) m = f () m := by
  simp only [Block.checkLimit, bind_assoc]
  rw [run_bind_of_ok (get_run m), if_neg (Nat.not_lt.2 hm)]
  rfl

theorem checkLimit_bind_of_lt (hm : maxStackSize < m.depth) (f : Unit → Run α) :
    (Block.checkLimit >>= f) m = .error .stackOverflow m := by
  simp only [Block.checkLimit, bind_assoc]
  rw [run_bind_of_ok (get_run m), if_pos hm]
  rfl

theorem keepsLimit_bind_checkLimit (x : Run α) : KeepsLimit (x >>= fun _ => Block.checkLimit) := by
  intro m b m'' _ h
  cases hxm : x m with
  | ok a m' =>
      rw [run_bind_of_ok hxm] at h
      simp only [Block.checkLimit] at h
      rw [run_bind_of_ok (get_run m')] at h
      split at h
      · exact nomatch h
      · cases h
        omega
  | error e m' =>
      rw [run_bind_of_error hxm] at h
      exact nomatch h

theorem keepsLimit_pop : KeepsLimit Run.pop := by
  rintro ⟨⟨_ | ⟨top, rest⟩⟩, alt, z⟩ b m' hm h <;> cases h
  · exact hm
  · simp only [Machine.depth_mk, List.length_cons] at hm ⊢
    omega

mutual
theorem keepsLimit_skip : (b : Block) → KeepsLimit b.skip
  | .op (.push _) _ => by
      rw [Block.skip]
      exact .ite' (.throw' _) (.pure' _)
  | .op (.code _) _ => by
      rw [Block.skip]
      exact .ite' (.throw' _) (.pure' _)
  | .branch _ _ segs => by
      rw [Block.skip]
      exact keepsLimit_skipSegments segs

theorem keepsLimit_skipList : (bs : List Block) → KeepsLimit (Block.skipList bs)
  | [] => by
      rw [Block.skipList]
      exact .pure' _
  | b :: bs => by
      rw [Block.skipList]
      exact (keepsLimit_skip b).bind fun _ => keepsLimit_skipList bs

theorem keepsLimit_skipSegments : (segs : List (List Block)) → KeepsLimit (Block.skipSegments segs)
  | [] => by
      rw [Block.skipSegments]
      exact .pure' _
  | seg :: segs => by
      rw [Block.skipSegments]
      exact (keepsLimit_skipList seg).bind fun _ => keepsLimit_skipSegments segs
end

variable [Digests]

mutual
theorem keepsLimit_run : (b : Block) → KeepsLimit b.run
  | .op o _ => by
      rw [Block.run]
      exact keepsLimit_bind_checkLimit _
  | .branch c _ segs => by
      rw [Block.run]
      refine keepsLimit_pop.bind fun top => ?_
      cases top with
      | none => exact .throw' _
      | some top => exact keepsLimit_runSegments _ segs

theorem keepsLimit_runList : (bs : List Block) → KeepsLimit (Block.runList bs)
  | [] => by
      rw [Block.runList]
      exact .pure' _
  | b :: bs => by
      rw [Block.runList]
      exact (keepsLimit_run b).bind fun _ => keepsLimit_runList bs

theorem keepsLimit_runSegments (selected : Bool) :
    (segs : List (List Block)) → KeepsLimit (Block.runSegments selected segs)
  | [] => by
      rw [Block.runSegments]
      exact .pure' _
  | seg :: segs => by
      rw [Block.runSegments]
      have hrest := keepsLimit_runSegments (!selected) segs
      exact .ite' ((keepsLimit_runList seg).bind fun _ => hrest)
        ((keepsLimit_skipList seg).bind fun _ => hrest)
end

end Limit

theorem Block.branch_ops_append {c : UInt8} {hc : c = Opcode.ifTrue ∨ c = Opcode.ifFalse}
    {segs : List (List Block)} (rest : List Operation) :
    (Block.branch c hc segs).ops ++ rest =
      .code c :: (Block.segmentsOps segs ++ .code Opcode.endIf :: rest) := by
  simp [Block.ops]

theorem runOps_cons [Digests] (op : Operation) (rest : List Operation) (conds : List Bool) :
    runOps (op :: rest) conds =
      stepOperation op conds >>= fun c => Block.checkLimit >>= fun _ => runOps rest c := rfl

section Closing

variable [Digests] {rest : List Operation} (hm : m.depth ≤ maxStackSize)
include hm

theorem runOps_else (b : Bool) :
    runOps (.code Opcode.elseBranch :: rest) (b :: conds) m = runOps rest ((!b) :: conds) m := by
  rw [runOps_cons, stepOperation_else, pure_bind, checkLimit_bind hm]

theorem runOps_endIf (b : Bool) :
    runOps (.code Opcode.endIf :: rest) (b :: conds) m = runOps rest conds m := by
  rw [runOps_cons, stepOperation_endIf, pure_bind, checkLimit_bind hm]

end Closing

/-! ## Blocks under a false flag -/

section Blocks

variable [Digests]

mutual
/-- Under a false flag the operations of a block only check what fails everywhere. -/
theorem runOps_skip : (b : Block) → (rest : List Operation) → (conds : List Bool) →
    conds.all id = false → ∀ m : Machine, m.depth ≤ maxStackSize →
    runOps (b.ops ++ rest) conds m = (b.skip >>= fun _ => runOps rest conds) m
  | .op o h, rest, conds, hdead, m, hm => by
      rw [Block.ops, List.singleton_append, runOps_cons, stepOperation_skip h hdead, bind_assoc]
      refine bind_congr_of_keepsLimit (keepsLimit_skip _) hm fun _ m' hm' => ?_
      rw [pure_bind, checkLimit_bind hm']
  | .branch c hc segs, rest, conds, hdead, m, hm => by
      rw [Block.branch_ops_append, Block.skip, runOps_cons, stepOperation_if_dead hc hdead,
        pure_bind, checkLimit_bind hm]
      exact runOps_skipSegments segs false rest conds hdead m hm

theorem runOps_skipList : (bs : List Block) → (rest : List Operation) → (conds : List Bool) →
    conds.all id = false → ∀ m : Machine, m.depth ≤ maxStackSize →
    runOps (Block.listOps bs ++ rest) conds m =
      (Block.skipList bs >>= fun _ => runOps rest conds) m
  | [], rest, conds, _, m, _ => by
      rw [Block.listOps, Block.skipList, List.nil_append, pure_bind]
  | b :: bs, rest, conds, hdead, m, hm => by
      rw [Block.listOps, Block.skipList, List.append_assoc, runOps_skip b _ conds hdead m hm,
        bind_assoc]
      exact bind_congr_of_keepsLimit (keepsLimit_skip b) hm fun _ m' hm' =>
        runOps_skipList bs rest conds hdead m' hm'

theorem runOps_skipSegments : (segs : List (List Block)) → (b : Bool) →
    (rest : List Operation) → (conds : List Bool) → conds.all id = false →
    ∀ m : Machine, m.depth ≤ maxStackSize →
    runOps (Block.segmentsOps segs ++ .code Opcode.endIf :: rest) (b :: conds) m =
      (Block.skipSegments segs >>= fun _ => runOps rest conds) m
  | [], b, rest, conds, _, m, hm => by
      rw [Block.segmentsOps, Block.skipSegments, List.nil_append, pure_bind, runOps_endIf hm]
  | [seg], b, rest, conds, hdead, m, hm => by
      rw [Block.segmentsOps, Block.skipSegments, Block.skipSegments,
        runOps_skipList seg _ (b :: conds) (by simp [hdead]) m hm, bind_assoc]
      refine bind_congr_of_keepsLimit (keepsLimit_skipList seg) hm fun _ m' hm' => ?_
      rw [pure_bind, runOps_endIf hm']
  | seg :: seg' :: segs, b, rest, conds, hdead, m, hm => by
      rw [Block.segmentsOps, Block.skipSegments, List.append_assoc, List.cons_append,
        runOps_skipList seg _ (b :: conds) (by simp [hdead]) m hm, bind_assoc]
      refine bind_congr_of_keepsLimit (keepsLimit_skipList seg) hm fun _ m' hm' => ?_
      rw [runOps_else hm']
      exact runOps_skipSegments (seg' :: segs) (!b) rest conds hdead m' hm'
end

/-! ## Blocks under true flags -/

theorem Block.runSegments_cons (selected : Bool) (seg : List Block) (segs : List (List Block)) :
    Block.runSegments selected (seg :: segs) =
      (if selected then Block.runList seg else Block.skipList seg) >>= fun _ =>
        Block.runSegments (!selected) segs := by
  rw [Block.runSegments]
  split <;> rfl

theorem runOps_execute {o : Operation} (h : o.isBranch = false) (hlive : conds.all id = true)
    (rest : List Operation) :
    runOps (o :: rest) conds = (Block.op o h).run >>= fun _ => runOps rest conds := by
  simp only [runOps_cons, stepOperation_execute h hlive, Block.run, bind_assoc, pure_bind]

mutual
/-- Under true flags the operations of a block run as the reference runs the block. -/
theorem runOps_run : (b : Block) → (rest : List Operation) → (conds : List Bool) →
    conds.all id = true → ∀ m : Machine, m.depth ≤ maxStackSize →
    runOps (b.ops ++ rest) conds m = (b.run >>= fun _ => runOps rest conds) m
  | .op o h, rest, conds, hlive, m, _ => by
      rw [Block.ops, List.singleton_append, runOps_execute h hlive]
  | .branch c hc segs, rest, conds, hlive, ⟨⟨items⟩, alt, z⟩, hm => by
      rw [Block.branch_ops_append, runOps_cons, Block.run, bind_assoc]
      cases items with
      | nil =>
          rw [run_bind_of_error (stepOperation_if_empty hc hlive),
            run_bind_of_ok (show Run.pop ⟨⟨[]⟩, alt, z⟩ = .ok none ⟨⟨[]⟩, alt, z⟩ from rfl)]
          rfl
      | cons top items =>
          -- popping the condition leaves one element fewer
          have hm' : (⟨⟨items⟩, alt, z⟩ : Machine).depth ≤ maxStackSize := by
            simp only [Machine.depth_mk, List.length_cons] at hm ⊢
            omega
          rw [run_bind_of_ok (stepOperation_if_top hc hlive), checkLimit_bind hm',
            run_bind_of_ok (show Run.pop ⟨⟨top :: items⟩, alt, z⟩ =
              .ok (some top) ⟨⟨items⟩, alt, z⟩ from rfl)]
          exact runOps_runSegments segs _ rest conds hlive _ hm'

theorem runOps_runList : (bs : List Block) → (rest : List Operation) → (conds : List Bool) →
    conds.all id = true → ∀ m : Machine, m.depth ≤ maxStackSize →
    runOps (Block.listOps bs ++ rest) conds m =
      (Block.runList bs >>= fun _ => runOps rest conds) m
  | [], rest, conds, _, m, _ => by
      rw [Block.listOps, Block.runList, List.nil_append, pure_bind]
  | b :: bs, rest, conds, hlive, m, hm => by
      rw [Block.listOps, Block.runList, List.append_assoc, runOps_run b _ conds hlive m hm,
        bind_assoc]
      exact bind_congr_of_keepsLimit (keepsLimit_run b) hm fun _ m' hm' =>
        runOps_runList bs rest conds hlive m' hm'

theorem runOps_runSegments : (segs : List (List Block)) → (selected : Bool) →
    (rest : List Operation) → (conds : List Bool) → conds.all id = true →
    ∀ m : Machine, m.depth ≤ maxStackSize →
    runOps (Block.segmentsOps segs ++ .code Opcode.endIf :: rest) (selected :: conds) m =
      (Block.runSegments selected segs >>= fun _ => runOps rest conds) m
  | [], selected, rest, conds, _, m, hm => by
      rw [Block.segmentsOps, Block.runSegments, List.nil_append, pure_bind, runOps_endIf hm]
  | [seg], selected, rest, conds, hlive, m, hm => by
      have hfirst : runOps (Block.listOps seg ++ .code Opcode.endIf :: rest) (selected :: conds) m =
          ((if selected then Block.runList seg else Block.skipList seg) >>= fun _ =>
            runOps (.code Opcode.endIf :: rest) (selected :: conds)) m := by
        cases selected
        · exact runOps_skipList seg _ (false :: conds) rfl m hm
        · exact runOps_runList seg _ (true :: conds) (by simpa using hlive) m hm
      rw [Block.segmentsOps, Block.runSegments_cons, Block.runSegments, hfirst, bind_assoc]
      refine bind_congr_of_keepsLimit (.ite' (keepsLimit_runList seg) (keepsLimit_skipList seg))
        hm fun _ m' hm' => ?_
      rw [pure_bind, runOps_endIf hm']
  | seg :: seg' :: segs, selected, rest, conds, hlive, m, hm => by
      have hfirst : runOps (Block.listOps seg ++ .code Opcode.elseBranch ::
            (Block.segmentsOps (seg' :: segs) ++ .code Opcode.endIf :: rest)) (selected :: conds) m =
          ((if selected then Block.runList seg else Block.skipList seg) >>= fun _ =>
            runOps (.code Opcode.elseBranch ::
              (Block.segmentsOps (seg' :: segs) ++ .code Opcode.endIf :: rest))
              (selected :: conds)) m := by
        cases selected
        · exact runOps_skipList seg _ (false :: conds) rfl m hm
        · exact runOps_runList seg _ (true :: conds) (by simpa using hlive) m hm
      rw [Block.segmentsOps, Block.runSegments_cons, List.append_assoc, List.cons_append, hfirst,
        bind_assoc]
      refine bind_congr_of_keepsLimit (.ite' (keepsLimit_runList seg) (keepsLimit_skipList seg))
        hm fun _ m' hm' => ?_
      rw [runOps_else hm']
      exact runOps_runSegments (seg' :: segs) (!selected) rest conds hlive m' hm'
end

end Blocks

/-! ## Reference runs never fail with an unbalanced conditional -/

section Unbalanced

variable {α β : Type}

/-- A run that never fails with an unbalanced conditional. -/
def NeverUnbalanced (x : Run α) : Prop := ∀ m m', x m ≠ .error .unbalancedConditional m'

namespace NeverUnbalanced

theorem pure' (a : α) : NeverUnbalanced (pure a : Run α) := by
  intro m m' h
  exact nomatch h

theorem throw' {e : ScriptFailure} (he : e ≠ .unbalancedConditional) :
    NeverUnbalanced (throw e : Run α) := by
  intro m m' h
  cases h
  exact he rfl

theorem bind {x : Run α} {f : α → Run β} (hx : NeverUnbalanced x)
    (hf : ∀ a, NeverUnbalanced (f a)) : NeverUnbalanced (x >>= f) := by
  intro m m'' h
  cases hxm : x m with
  | ok a m' =>
      rw [run_bind_of_ok hxm] at h
      exact hf a m' m'' h
  | error e m' =>
      rw [run_bind_of_error hxm] at h
      cases h
      exact hx m m'' hxm

theorem ite' {p : Prop} [Decidable p] {x y : Run α} (hx : NeverUnbalanced x)
    (hy : NeverUnbalanced y) : NeverUnbalanced (if p then x else y) := by
  split
  · exact hx
  · exact hy

theorem lift (c : StateM Machine α) : NeverUnbalanced (Run.lift c) := by
  intro m m' h
  exact nomatch h

end NeverUnbalanced

theorem neverUnbalanced_checkLimit : NeverUnbalanced Block.checkLimit := by
  intro m m' h
  simp only [Block.checkLimit] at h
  rw [run_bind_of_ok (get_run m)] at h
  split at h
  · cases h
  · exact nomatch h

mutual
theorem neverUnbalanced_skip : (b : Block) → NeverUnbalanced b.skip
  | .op (.push _) _ => by
      rw [Block.skip]
      exact .ite' (.throw' (by simp)) (.pure' _)
  | .op (.code _) _ => by
      rw [Block.skip]
      exact .ite' (.throw' (by simp)) (.pure' _)
  | .branch _ _ segs => by
      rw [Block.skip]
      exact neverUnbalanced_skipSegments segs

theorem neverUnbalanced_skipList : (bs : List Block) → NeverUnbalanced (Block.skipList bs)
  | [] => by
      rw [Block.skipList]
      exact .pure' _
  | b :: bs => by
      rw [Block.skipList]
      exact (neverUnbalanced_skip b).bind fun _ => neverUnbalanced_skipList bs

theorem neverUnbalanced_skipSegments :
    (segs : List (List Block)) → NeverUnbalanced (Block.skipSegments segs)
  | [] => by
      rw [Block.skipSegments]
      exact .pure' _
  | seg :: segs => by
      rw [Block.skipSegments]
      exact (neverUnbalanced_skipList seg).bind fun _ => neverUnbalanced_skipSegments segs
end

variable [Digests]

theorem neverUnbalanced_execute (o : Operation) : NeverUnbalanced (Block.execute o) := by
  cases o with
  | push data =>
      rw [Block.execute]
      exact .ite' (.bind (.throw' (by simp)) fun _ => .lift _) (.lift _)
  | code c =>
      rw [Block.execute]
      refine .ite' (.bind (.throw' (by simp)) fun _ => ?_) ?_ <;>
      · cases Semantics.action? c with
        | none => exact .throw' (by simp)
        | some a =>
            exact .bind (.lift _) fun b => .ite' (.throw' (by simp)) (.pure' _)

mutual
theorem neverUnbalanced_run : (b : Block) → NeverUnbalanced b.run
  | .op o _ => by
      rw [Block.run]
      exact (neverUnbalanced_execute o).bind fun _ => neverUnbalanced_checkLimit
  | .branch c _ segs => by
      rw [Block.run]
      refine (NeverUnbalanced.lift _).bind fun top => ?_
      cases top with
      | none => exact .throw' (by simp)
      | some top => exact neverUnbalanced_runSegments _ segs

theorem neverUnbalanced_runList : (bs : List Block) → NeverUnbalanced (Block.runList bs)
  | [] => by
      rw [Block.runList]
      exact .pure' _
  | b :: bs => by
      rw [Block.runList]
      exact (neverUnbalanced_run b).bind fun _ => neverUnbalanced_runList bs

theorem neverUnbalanced_runSegments (selected : Bool) :
    (segs : List (List Block)) → NeverUnbalanced (Block.runSegments selected segs)
  | [] => by
      rw [Block.runSegments]
      exact .pure' _
  | seg :: segs => by
      rw [Block.runSegments_cons]
      exact (NeverUnbalanced.ite' (neverUnbalanced_runList seg)
        (neverUnbalanced_skipList seg)).bind fun _ => neverUnbalanced_runSegments (!selected) segs
end

end Unbalanced

/-! ## The flags run every script as its blocks -/

section Flags

variable [Digests]

theorem keepsLimit_runOps (ops : List Operation) (conds : List Bool) :
    KeepsLimit (runOps ops conds) := by
  induction ops generalizing conds with
  | nil => exact .pure' _
  | cons op ops ih =>
      intro m c' m'' _ h
      rw [runOps_cons] at h
      cases hstep : stepOperation op conds m with
      | error e m' =>
          rw [run_bind_of_error hstep] at h
          exact nomatch h
      | ok c m' =>
          rw [run_bind_of_ok hstep] at h
          -- the check passes only within the limit, and the rest keeps it
          by_cases hm' : m'.depth ≤ maxStackSize
          · rw [checkLimit_bind hm'] at h
            exact ih c hm' h
          · rw [checkLimit_bind_of_lt (Nat.lt_of_not_le hm')] at h
            exact nomatch h

theorem runOps_endIfs (hm : m.depth ≤ maxStackSize) :
    ∀ (k : Nat) (conds : List Bool), runOps (List.replicate k (.code Opcode.endIf)) conds m =
      if k ≤ conds.length then .ok (conds.drop k) m else .error .unbalancedConditional m
  | 0, conds => by simp [runOps]; rfl
  | k + 1, [] => by
      rw [List.replicate_succ, runOps_cons, stepOperation_stray (.inr rfl)]
      rfl
  | k + 1, b :: conds => by
      rw [List.replicate_succ, runOps_endIf hm, runOps_endIfs hm k conds]
      simp

/-- Operations that `k` closing `OP_ENDIF`s make run as blocks run leave flags open without them:
they run as the blocks do, and then fail with an unbalanced conditional. -/
theorem closedAll_of_endIfs {ops : List Operation} {bs : List Block} {k : Nat} (hk : 0 < k)
    (hm : m.depth ≤ maxStackSize)
    (hsim : (runOps ops [] >>= runOps (List.replicate k (.code Opcode.endIf))) m =
      (Block.runList bs >>= fun _ => runOps [] []) m) :
    (runOps ops [] >>= closedAll) m =
      (Block.runList bs >>= fun _ => throw .unbalancedConditional) m := by
  cases hb : Block.runList bs m with
  | ok _ m2 =>
      rw [run_bind_of_ok hb, show runOps [] [] m2 = .ok [] m2 from rfl] at hsim
      rw [run_bind_of_ok hb]
      cases hrun : runOps ops [] m with
      | error e m1 =>
          rw [run_bind_of_error hrun] at hsim
          exact nomatch hsim
      | ok c m1 =>
          rw [run_bind_of_ok hrun, runOps_endIfs (keepsLimit_runOps ops [] hm hrun)] at hsim
          -- the `OP_ENDIF`s closed exactly the `k` flags the operations left open
          split_ifs at hsim with hkc
          obtain ⟨-, rfl⟩ := EStateM.Result.ok.inj hsim
          have hc : c ≠ [] := by
            rintro rfl
            simp at hkc
            omega
          rw [run_bind_of_ok hrun, closedAll_of_ne_nil hc]
  | error e m2 =>
      rw [run_bind_of_error hb] at hsim ⊢
      cases hrun : runOps ops [] m with
      | error e' m1 =>
          rw [run_bind_of_error hrun] at hsim ⊢
          cases hsim
          rfl
      | ok c m1 =>
          -- too few flags open: the blocks would have failed with an unbalanced conditional
          rw [run_bind_of_ok hrun, runOps_endIfs (keepsLimit_runOps ops [] hm hrun)] at hsim
          split_ifs at hsim
          cases hsim
          exact absurd hb (neverUnbalanced_runList bs m _)

/-- From a machine within the stack limit, running operations under the condition flags is
running them read into blocks: the same failure, or success, with the same machine. -/
theorem evaluate_eq_parse_run (ops : List Operation) (m : Machine)
    (hm : m.depth ≤ maxStackSize) : evaluate ops m = (parse ops).run m := by
  rw [evaluate, evaluateFrom_eq_runOps]
  have hreads := parse_reads ops
  cases hp : parse ops with
  | balanced bs =>
      rw [hp, Parsed.Reads] at hreads
      rw [Parsed.run, ← hreads, ← List.append_nil (Block.listOps bs),
        bind_run_eq (runOps_runList bs [] [] rfl m hm), bind_assoc]
      simp [runOps, closedAll]
  | stray bs rest =>
      rw [hp, Parsed.Reads] at hreads
      obtain ⟨hops, c, rest', rfl, hc⟩ := hreads
      have hstray : runOps (.code c :: rest') [] >>= closedAll = throw .unbalancedConditional := by
        rw [runOps_cons, stepOperation_stray hc]
        rfl
      rw [Parsed.run, ← hops, bind_run_eq (runOps_runList bs _ [] rfl m hm), bind_assoc, hstray]
  | unclosed bs k =>
      rw [hp, Parsed.Reads] at hreads
      obtain ⟨hops, hk⟩ := hreads
      -- the blocks read are the operations followed by `k` closing `OP_ENDIF`s
      have hsim := runOps_runList bs [] [] rfl m hm
      rw [List.append_nil, hops, runOps_append] at hsim
      rw [Parsed.run]
      exact closedAll_of_endIfs hk hm hsim

end Flags

/-- An `OP_NOTIF` block whose condition holds: its first segment, skipped, holds an `OP_IF` block
with an opcode that has no action and an `OP_ELSE` of its own. -/
theorem evaluate_nested_branches :
    let ops : List Operation := [.push [1], .code Opcode.ifFalse, .push [], .code Opcode.ifTrue,
      .code 0x7e, .code Opcode.elseBranch, .code Opcode.endIf, .code Opcode.elseBranch, .push [2],
      .code Opcode.endIf]
    ({} : Machine).depth ≤ maxStackSize ∧ evaluate ops {} = (parse ops).run {} :=
  ⟨by decide, evaluate_eq_parse_run _ {} (by decide)⟩

end Bitcoin
