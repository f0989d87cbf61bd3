import Bitcoin.Script.Basic
import Bitcoin.Script.Semantics
/-! # Running scripts

`evaluate` runs operations in one pass under the flags of the open branches, innermost first; an
operation executes when every flag holds. Pushes over 520 bytes and `OP_VERIF`/`OP_VERNOTIF` fail
even where nothing executes, and the two stacks may hold at most 1000 elements after each step.
`verifyScript` runs the unlocking and then the locking script on one machine; for
pay-to-script-hash the unlocking script must be push-only and its top element runs last as the
redeem script.
-/

namespace Bitcoin

variable [Digests]

/-- Why a script evaluated to false. -/
inductive ScriptFailure where
  /-- A branch opcode found the stack empty. -/
  | stackUnderflow (name : String)
  /-- An opcode's action failed. -/
  | opcodeFailed (name : String)
  /-- An opcode without an action, or `OP_VERIF`/`OP_VERNOTIF`. -/
  | unsupportedOpcode (code : UInt8)
  /-- An `OP_ELSE` or `OP_ENDIF` without its `OP_IF`, or a branch left open. -/
  | unbalancedConditional
  /-- A push longer than 520 bytes. -/
  | pushTooLarge (size : Nat)
  /-- More than 1000 elements on the two stacks. -/
  | stackOverflow
  /-- No element left to check. -/
  | emptyStack
  /-- The element checked is false. -/
  | falseResult
  /-- A redeem script that does not decode. -/
  | invalidRedeemScript (detail : String)
  deriving Repr, DecidableEq

namespace ScriptFailure

def message : ScriptFailure → String
  | stackUnderflow n => "Stack underflow in " ++ n
  | opcodeFailed n => n ++ " failed"
  | unsupportedOpcode c => "Unsupported opcode 0x" ++ byteHex c
  | unbalancedConditional => "Unbalanced conditional"
  | pushTooLarge n => s!"Push exceeds maximum element size: {n} bytes"
  | stackOverflow => "Stack size limit exceeded"
  | emptyStack => "Script finished with an empty stack"
  | falseResult => "Script finished with a false top element"
  | invalidRedeemScript d => "Invalid redeem script: " ++ d

end ScriptFailure

/-- A run of the machine that may stop with a failure, keeping the state it reached. -/
abbrev Run (α : Type) := EStateM ScriptFailure Machine α

namespace Run

def lift {β : Type} (c : StateM Machine β) : Run β :=
  modifyGet fun m => c.run m

def act (a : Action) : Run Bool := lift a

def pop : Run (Option Bytes) := lift Machine.pop

end Run

def maxElementSize : Nat := 520

/-- The most elements the two stacks may hold together. -/
def maxStackSize : Nat := 1000

/-- Run one operation under the open conditions, innermost first, and return the conditions after
it. -/
def stepOperation (op : Operation) (conditions : List Bool) : Run (List Bool) := do
  let executing := conditions.all id
  match op with
  | .push data =>
    if data.length > maxElementSize then throw (.pushTooLarge data.length)
    if executing then Run.lift (Machine.push data)
    return conditions
  | .code c =>
    if c = Opcode.verIf ∨ c = Opcode.verNotIf then throw (.unsupportedOpcode c)
    else if c = Opcode.ifTrue ∨ c = Opcode.ifFalse then
      if executing then
        match ← Run.pop with
        | none => throw (.stackUnderflow (Opcode.name c))
        | some top => return (ScriptNum.isTrue top == (c = Opcode.ifTrue)) :: conditions
      else return false :: conditions
    else if c = Opcode.elseBranch then
      match conditions with
      | [] => throw .unbalancedConditional
      | b :: rest => return (!b) :: rest
    else if c = Opcode.endIf then
      match conditions with
      | [] => throw .unbalancedConditional
      | _ :: rest => return rest
    else if !executing then return conditions
    else
      match Semantics.action? c with
      | none => throw (.unsupportedOpcode c)
      | some a =>
        if !(← Run.act a) then throw (.opcodeFailed (Opcode.name c))
        return conditions

/-- Run operations in order under the open conditions, checking the stack limit after each. -/
def evaluateFrom : List Operation → List Bool → Run Unit
  | [], conditions => if conditions.isEmpty then return () else throw .unbalancedConditional
  | op :: ops, conditions => do
    let conditions ← stepOperation op conditions
    if (← get).depth > maxStackSize then throw .stackOverflow
    evaluateFrom ops conditions

/-- Run operations against the machine; every branch opened must be closed. -/
def evaluate (ops : List Operation) : Run Unit :=
  evaluateFrom ops []

/-- Pop the top element and require it to be true. -/
def checkTop : Run Unit := do
  match ← Run.pop with
  | none => throw .emptyStack
  | some top => if !ScriptNum.isTrue top then throw .falseResult

/-- The outcome of validating a script or transaction. -/
inductive Verdict where
  /-- Everything checked. -/
  | valid
  /-- Something failed, for the reason given. -/
  | invalid (reason : String)
  deriving Repr, DecidableEq

/-- Run a script stage from a machine: the failure as the reason of an invalid verdict, prefixed
by the stage's name, or the machine it left. -/
def runStage (stage : String) (r : Run Unit) (m : Machine) : Except Verdict Machine :=
  match r.run m with
  | .ok _ m => .ok m
  | .error f _ => .error (.invalid (stage ++ ": " ++ f.message))

/-- Validate an unlocking script against a locking script. `sigHash` gives the message hash
for signature checks: it is asked with no script for an ordinary locking script, and with the
redeem script for pay-to-script-hash. Scripts that do not decode, and errors of `sigHash`, are
errors; every other failure is an invalid verdict. -/
def verifyScript [Monad m] [MonadExcept Error m] (scriptSig scriptPubkey : Script)
    (sigHash : Option Script → m Nat) : m Verdict := do
  let unlocking ← liftExcept scriptSig.operations
  let locking ← liftExcept scriptPubkey.operations
  let isP2sh := scriptPubkey.isP2sh
  if isP2sh && !scriptSig.isPushOnly then
    return .invalid "P2SH unlocking script must be push-only"
  let initial ← if isP2sh then pure 0 else sigHash none
  match runStage "unlocking script" (evaluate unlocking) { sigHash := initial } with
  | .error v => return v
  | .ok afterUnlock =>
  if !isP2sh then
    match runStage "locking script" (do evaluate locking; checkTop) afterUnlock with
    | .error v => return v
    | .ok _ => return .valid
  else
  match afterUnlock.stack.peek with
  | none => return .invalid ("unlocking script: " ++ ScriptFailure.emptyStack.message)
  | some top =>
  let redeem := Script.ofBytes top
  let hash ← sigHash (some redeem)
  match runStage "locking script" (do evaluate locking; checkTop)
      { afterUnlock with sigHash := hash } with
  | .error v => return v
  | .ok afterLock =>
  match redeem.operations with
  | .error e =>
    return .invalid ("redeem script: " ++ (ScriptFailure.invalidRedeemScript e.message).message)
  | .ok ops =>
  match runStage "redeem script" (do evaluate ops; checkTop) afterLock with
  | .error v => return v
  | .ok _ => return .valid
where
  /-- An `Outcome` in the surrounding monad. -/
  liftExcept {α : Type} : Outcome α → m α
    | .ok a => pure a
    | .error e => throw e

end Bitcoin
