import Bitcoin.Script.Stack
import Bitcoin.Script.Num
/-! # The script machine

The state a script runs against: the main stack, the alternate stack, and the message hash that
signature checks verify against. Opcode actions are computations in `StateM Machine`; the moves
here are their building blocks. A failing action leaves whatever it already changed.
-/

namespace Bitcoin

/-- The state of a running script. -/
structure Machine where
  /-- The main stack. -/
  stack : Stack := {}
  /-- The alternate stack. -/
  alt : Stack := {}
  /-- The message hash that signature checks verify against. -/
  sigHash : Nat := 0
  deriving Repr, Inhabited

/-- An opcode's action: it changes the machine and reports whether the script may go on. -/
abbrev Action := StateM Machine Bool

namespace Machine

/-- The number of elements on both stacks. -/
def depth (m : Machine) : Nat := m.stack.size + m.alt.size

def push (x : Bytes) : StateM Machine Unit :=
  modify fun m => { m with stack := m.stack.push x }

def pop : StateM Machine (Option Bytes) :=
  modifyGet fun m => let (x, s) := m.stack.pop; (x, { m with stack := s })

def pushNum (n : Int64) : StateM Machine Unit := push (ScriptNum.encode n)

/-- Push a truth value as the number 1 or 0. -/
def pushBool (b : Bool) : StateM Machine Unit := pushNum (if b then 1 else 0)

/-- Remove the element `i` places below the top of the main stack. -/
def removeAt (i : Nat) : StateM Machine (Option Bytes) :=
  modifyGet fun m => let (x, s) := m.stack.removeAt i; (x, { m with stack := s })

def size : StateM Machine Nat := do return (← get).stack.size

/-- Pop a numeric operand: at most four bytes. A longer element is popped all the same. -/
def popNum : StateM Machine (Option Int64) := do
  match ← pop with
  | none => return none
  | some e => return if e.length > 4 then none else some (ScriptNum.decode e)

def pushAll : List Bytes → StateM Machine Unit
  | [] => return ()
  | x :: xs => do push x; pushAll xs

/-- Remove the elements at each depth in turn, each depth counted after the removals before it. -/
def removeEach : List Nat → StateM Machine (Option (List Bytes))
  | [] => return some []
  | d :: ds => do
    let some x ← removeAt d | return none
    let some xs ← removeEach ds | return none
    return some (x :: xs)

/-- Pop `k` elements and list them in the order they were pushed. -/
def popMany : Nat → StateM Machine (Option (List Bytes))
  | 0 => return some []
  | k + 1 => do
    let some x ← pop | return none
    let some xs ← popMany k | return none
    return some (xs ++ [x])

end Machine

end Bitcoin
