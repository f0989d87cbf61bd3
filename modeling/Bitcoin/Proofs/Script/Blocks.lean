import Bitcoin.Script.Interpreter
import Mathlib.Tactic.SplitIfs

/-! # Scripts read as nested blocks

`OP_IF` and `OP_NOTIF` open a block that `OP_ENDIF` closes, and `OP_ELSE` ends one of its
segments. `Block.run` runs a script read that way: an executed block pops its condition and runs
the segments it selects; a segment that is not selected only fails on a push over 520 bytes or on
`OP_VERIF`/`OP_VERNOTIF`. `parse` reads any operation list into blocks; at a stray `OP_ELSE` or
`OP_ENDIF`, or at blocks left open, `Parsed.run` runs what was read and then fails.
-/

namespace Bitcoin

namespace Operation

def isBranch : Operation → Bool
  | push _ => false
  | code c => c == Opcode.ifTrue || c == Opcode.ifFalse || c == Opcode.elseBranch ||
      c == Opcode.endIf

theorem isBranch_code_eq_false {c : UInt8} :
    (code c).isBranch = false ↔
      ¬(c = Opcode.ifTrue ∨ c = Opcode.ifFalse) ∧ c ≠ Opcode.elseBranch ∧ c ≠ Opcode.endIf := by
  simp [isBranch, and_assoc]

end Operation

/-- A script read as nested blocks. -/
inductive Block where
  /-- An operation other than the branch opcodes. -/
  | op (o : Operation) (h : o.isBranch = false)
  /-- `OP_IF` or `OP_NOTIF` and its segments, separated by `OP_ELSE` and closed by `OP_ENDIF`. -/
  | branch (code : UInt8) (h : code = Opcode.ifTrue ∨ code = Opcode.ifFalse)
      (segments : List (List Block))

namespace Block

mutual
def ops : Block → List Operation
  | op o _ => [o]
  | branch c _ segments => .code c :: segmentsOps segments ++ [.code Opcode.endIf]

def listOps : List Block → List Operation
  | [] => []
  | b :: bs => b.ops ++ listOps bs

def segmentsOps : List (List Block) → List Operation
  | [] => []
  | [seg] => listOps seg
  | seg :: seg' :: segs => listOps seg ++ .code Opcode.elseBranch :: segmentsOps (seg' :: segs)
end

/-! ## The reference interpreter -/

/-- Fail when the two stacks hold more than 1000 elements. -/
def checkLimit : Run Unit := do
  if (← get).depth > maxStackSize then throw .stackOverflow

mutual
/-- A block in a segment that is not selected. -/
def skip : Block → Run Unit
  | op (.push data) _ =>
    if data.length > maxElementSize then throw (.pushTooLarge data.length) else pure ()
  | op (.code c) _ =>
    if c = Opcode.verIf ∨ c = Opcode.verNotIf then throw (.unsupportedOpcode c) else pure ()
  | branch _ _ segments => skipSegments segments

def skipList : List Block → Run Unit
  | [] => pure ()
  | b :: bs => do b.skip; skipList bs

def skipSegments : List (List Block) → Run Unit
  | [] => pure ()
  | seg :: segs => do skipList seg; skipSegments segs
end

section Running

variable [Digests]

/-- An executed operation other than the branch opcodes, before the check of the stack limit: a
push, or the opcode's action. -/
def execute : Operation → Run Unit
  | .push data => do
    if data.length > maxElementSize then throw (.pushTooLarge data.length)
    Run.lift (Machine.push data)
  | .code c => do
    if c = Opcode.verIf ∨ c = Opcode.verNotIf then throw (.unsupportedOpcode c)
    match Semantics.action? c with
    | none => throw (.unsupportedOpcode c)
    | some a => if !(← Run.act a) then throw (.opcodeFailed (Opcode.name c))

mutual
/-- An executed block. -/
def run : Block → Run Unit
  | op o _ => do execute o; checkLimit
  | branch c _ segments => do
    match ← Run.pop with
    | none => throw (.stackUnderflow (Opcode.name c))
    | some top => runSegments (ScriptNum.isTrue top == (c = Opcode.ifTrue)) segments

def runList : List Block → Run Unit
  | [] => pure ()
  | b :: bs => do b.run; runList bs

/-- Segments of which the first runs when `selected`, and each next one when the one before does
not. -/
def runSegments (selected : Bool) : List (List Block) → Run Unit
  | [] => pure ()
  | seg :: segs => do
    if selected then runList seg else skipList seg
    runSegments (!selected) segs
end

end Running

end Block

/-! ## Reading operations into blocks -/

/-- A block that reading has opened and not yet closed. -/
structure Frame where
  code : UInt8
  isIf : code = Opcode.ifTrue ∨ code = Opcode.ifFalse
  /-- The segments ended by `OP_ELSE`. -/
  segments : List (List Block)
  /-- The blocks of the segment being read. -/
  current : List Block

namespace Frame

def ops (f : Frame) : List Operation :=
  .code f.code :: Block.segmentsOps (f.segments ++ [f.current])

/-- The frame after an `OP_ELSE`: its current segment ends and an empty one starts. -/
def nextSegment (f : Frame) : Frame :=
  { f with segments := f.segments ++ [f.current], current := [] }

/-- The block that closing the frame gives, with `inner` added to its current segment. -/
def closeWith (f : Frame) (inner : List Block) : Block :=
  .branch f.code f.isIf (f.segments ++ [f.current ++ inner])

end Frame

/-- Close open frames, innermost first, as `OP_ENDIF`s at the end would. -/
def closeFrames (inner : List Block) : List Frame → List Block
  | [] => inner
  | f :: fs => closeFrames [f.closeWith inner] fs

/-- What reading has found so far: the blocks outside every block, and the open frames,
innermost first. -/
structure Reading where
  blocks : List Block
  frames : List Frame

namespace Reading

def add (r : Reading) (b : Block) : Reading :=
  match r.frames with
  | [] => { r with blocks := r.blocks ++ [b] }
  | f :: fs => { r with frames := { f with current := f.current ++ [b] } :: fs }

/-- Read one more operation; `none` for an `OP_ELSE` or `OP_ENDIF` outside every block. -/
def step (r : Reading) : Operation → Option Reading
  | .push data => some (r.add (.op (.push data) rfl))
  | .code c =>
    if hIf : c = Opcode.ifTrue ∨ c = Opcode.ifFalse then
      some { r with frames := ⟨c, hIf, [], []⟩ :: r.frames }
    else if hElse : c = Opcode.elseBranch then
      match r.frames with
      | [] => none
      | f :: fs => some { r with frames := f.nextSegment :: fs }
    else if hEnd : c = Opcode.endIf then
      match r.frames with
      | [] => none
      | f :: fs => some (add ⟨r.blocks, fs⟩ (f.closeWith []))
    else some (r.add (.op (.code c) (Operation.isBranch_code_eq_false.2 ⟨hIf, hElse, hEnd⟩)))

end Reading

/-- An operation list read into blocks. -/
inductive Parsed where
  /-- Every block is closed. -/
  | balanced (blocks : List Block)
  /-- `rest` starts with an `OP_ELSE` or `OP_ENDIF` outside every block. -/
  | stray (blocks : List Block) (rest : List Operation)
  /-- `count` blocks were left open and are closed at the end. -/
  | unclosed (blocks : List Block) (count : Nat)

namespace Reading

/-- Read the rest of the operations. -/
def parse (r : Reading) : List Operation → Parsed
  | [] => match r.frames with
    | [] => .balanced r.blocks
    | f :: fs => .unclosed (r.blocks ++ closeFrames [] (f :: fs)) (fs.length + 1)
  | op :: ops => match r.step op with
    | none => .stray r.blocks (op :: ops)
    | some r' => r'.parse ops

end Reading

/-- Read an operation list into blocks. -/
def parse (ops : List Operation) : Parsed := Reading.parse ⟨[], []⟩ ops

/-- The reference run of an operation list read into blocks. -/
def Parsed.run [Digests] : Parsed → Run Unit
  | .balanced blocks => Block.runList blocks
  | .stray blocks _ => do Block.runList blocks; throw .unbalancedConditional
  | .unclosed blocks _ => do Block.runList blocks; throw .unbalancedConditional

/-! ## Reading keeps every operation -/

namespace Block

theorem listOps_append (bs bs' : List Block) : listOps (bs ++ bs') = listOps bs ++ listOps bs' := by
  induction bs with
  | nil => rfl
  | cons b bs ih => rw [List.cons_append, listOps, listOps, ih, List.append_assoc]

theorem segmentsOps_append_singleton (segs : List (List Block)) (seg : List Block) :
    segmentsOps (segs ++ [seg]) =
      segs.flatMap (fun s => listOps s ++ [.code Opcode.elseBranch]) ++ listOps seg := by
  induction segs with
  | nil => rfl
  | cons s segs ih =>
      cases segs with
      | nil => simp [segmentsOps]
      | cons s' segs =>
          simp only [List.cons_append] at ih ⊢
          rw [segmentsOps, ih]
          simp

end Block

namespace Frame

variable (f : Frame)

theorem ops_addCurrent (b : Block) : { f with current := f.current ++ [b] }.ops = f.ops ++ b.ops := by
  simp [ops, Block.segmentsOps_append_singleton, Block.listOps_append, Block.listOps]

theorem ops_nextSegment : f.nextSegment.ops = f.ops ++ [.code Opcode.elseBranch] := by
  rw [nextSegment, ops, ops, Block.segmentsOps_append_singleton,
    Block.segmentsOps_append_singleton, List.flatMap_append]
  simp [Block.listOps]

theorem ops_closeWith (inner : List Block) :
    (f.closeWith inner).ops = f.ops ++ Block.listOps inner ++ [.code Opcode.endIf] := by
  simp [ops, closeWith, Block.ops, Block.segmentsOps_append_singleton, Block.listOps_append]

end Frame

theorem listOps_closeFrames (inner : List Block) (frames : List Frame) :
    Block.listOps (closeFrames inner frames) = frames.reverse.flatMap Frame.ops ++
      Block.listOps inner ++ List.replicate frames.length (.code Opcode.endIf) := by
  induction frames generalizing inner with
  | nil => simp [closeFrames]
  | cons f fs ih =>
      rw [closeFrames, ih, Block.listOps, Block.listOps, List.append_nil, f.ops_closeWith]
      simp [List.replicate_succ]

namespace Reading

def ops (r : Reading) : List Operation :=
  Block.listOps r.blocks ++ r.frames.reverse.flatMap Frame.ops

theorem ops_add (r : Reading) (b : Block) : (r.add b).ops = r.ops ++ b.ops := by
  rcases r with ⟨blocks, _ | ⟨f, fs⟩⟩
  · simp [add, ops, Block.listOps_append, Block.listOps]
  · simp [add, ops, f.ops_addCurrent]

theorem ops_step {r r' : Reading} {op : Operation} (h : r.step op = some r') :
    r'.ops = r.ops ++ [op] := by
  cases op with
  | push data =>
      simp only [step, Option.some.injEq] at h
      rw [← h, ops_add]
      rfl
  | code c =>
      simp only [step] at h
      split_ifs at h with hIf hElse hEnd
      · cases h
        simp [ops, Frame.ops, Block.segmentsOps, Block.listOps]
      · rcases r with ⟨blocks, _ | ⟨f, fs⟩⟩
        · exact nomatch h
        · cases h
          simp [ops, f.ops_nextSegment, hElse]
      · rcases r with ⟨blocks, _ | ⟨f, fs⟩⟩
        · exact nomatch h
        · cases h
          rw [ops_add, f.ops_closeWith, hEnd]
          simp [ops, Block.listOps]
      · cases h
        rw [ops_add]
        rfl

theorem step_eq_none {r : Reading} {op : Operation} (h : r.step op = none) :
    r.frames = [] ∧ ∃ c, op = .code c ∧ (c = Opcode.elseBranch ∨ c = Opcode.endIf) := by
  cases op with
  | push data => exact nomatch h
  | code c =>
      simp only [step] at h
      split_ifs at h with hIf hElse hEnd
      · rcases r with ⟨blocks, _ | ⟨f, fs⟩⟩
        · exact ⟨rfl, c, rfl, .inl hElse⟩
        · exact nomatch h
      · rcases r with ⟨blocks, _ | ⟨f, fs⟩⟩
        · exact ⟨rfl, c, rfl, .inr hEnd⟩
        · exact nomatch h

theorem parse_balanced {r : Reading} {ops : List Operation} {bs : List Block}
    (h : r.parse ops = .balanced bs) : Block.listOps bs = r.ops ++ ops := by
  induction ops generalizing r with
  | nil =>
      rcases r with ⟨blocks, _ | ⟨f, fs⟩⟩
      · cases h
        simp [Reading.ops]
      · exact nomatch h
  | cons op ops ih =>
      simp only [parse] at h
      cases hstep : r.step op with
      | none => simp [hstep] at h
      | some r' =>
          rw [hstep] at h
          rw [ih h, ops_step hstep, List.append_assoc, List.singleton_append]

theorem parse_stray {r : Reading} {ops rest : List Operation} {bs : List Block}
    (h : r.parse ops = .stray bs rest) :
    Block.listOps bs ++ rest = r.ops ++ ops ∧
      ∃ c rest', rest = .code c :: rest' ∧ (c = Opcode.elseBranch ∨ c = Opcode.endIf) := by
  induction ops generalizing r with
  | nil =>
      rcases r with ⟨blocks, _ | ⟨f, fs⟩⟩ <;> exact nomatch h
  | cons op ops ih =>
      simp only [parse] at h
      cases hstep : r.step op with
      | none =>
          rw [hstep] at h
          cases h
          obtain ⟨hframes, c, rfl, hc⟩ := step_eq_none hstep
          exact ⟨by simp [Reading.ops, hframes], c, ops, rfl, hc⟩
      | some r' =>
          rw [hstep] at h
          obtain ⟨hops, hrest⟩ := ih h
          rw [hops, ops_step hstep, List.append_assoc, List.singleton_append]
          exact ⟨rfl, hrest⟩

theorem parse_unclosed {r : Reading} {ops : List Operation} {bs : List Block} {k : Nat}
    (h : r.parse ops = .unclosed bs k) :
    Block.listOps bs = r.ops ++ ops ++ List.replicate k (.code Opcode.endIf) ∧ 0 < k := by
  induction ops generalizing r with
  | nil =>
      rcases r with ⟨blocks, _ | ⟨f, fs⟩⟩
      · exact nomatch h
      · cases h
        simp [Reading.ops, Block.listOps_append, listOps_closeFrames, Block.listOps]
  | cons op ops ih =>
      simp only [parse] at h
      cases hstep : r.step op with
      | none => simp [hstep] at h
      | some r' =>
          rw [hstep] at h
          obtain ⟨hops, hk⟩ := ih h
          rw [hops, ops_step hstep]
          simp [hk]

end Reading

/-- The blocks read are the operations: up to an `OP_ELSE` or `OP_ENDIF` outside every block, or
followed by the `OP_ENDIF`s that close the blocks left open. -/
def Parsed.Reads : Parsed → List Operation → Prop
  | .balanced bs, ops => Block.listOps bs = ops
  | .stray bs rest, ops => Block.listOps bs ++ rest = ops ∧
      ∃ c rest', rest = .code c :: rest' ∧ (c = Opcode.elseBranch ∨ c = Opcode.endIf)
  | .unclosed bs k, ops => Block.listOps bs = ops ++ List.replicate k (.code Opcode.endIf) ∧ 0 < k

/-- Reading keeps every operation in order. -/
theorem parse_reads (ops : List Operation) : (parse ops).Reads ops := by
  have hstart : Reading.ops ⟨[], []⟩ = [] := rfl
  cases hp : parse ops with
  | balanced bs =>
      simpa [Parsed.Reads, hstart] using Reading.parse_balanced hp
  | stray bs rest =>
      simpa [Parsed.Reads, hstart] using Reading.parse_stray hp
  | unclosed bs k =>
      simpa [Parsed.Reads, hstart] using Reading.parse_unclosed hp

end Bitcoin
