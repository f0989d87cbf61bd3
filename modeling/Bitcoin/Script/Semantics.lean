import Bitcoin.Script.Machine
import Bitcoin.Script.Opcode
import Bitcoin.Key
/-! # What each opcode does

The action of every opcode that has one. Arithmetic reads operands of at most four bytes as
script numbers; stack shuffles move elements named by their depth; signature checks read a SEC key
and a DER signature with a hash-type byte, and an element that does not parse is a failed check,
not an error. Opcodes without an action (flow control, disabled and reserved bytes, the time
locks, `OP_CODESEPARATOR`) fail when run.
-/

namespace Bitcoin.Semantics

variable [Digests]

open Machine

/-- Push copies of the elements at the given depths, in order; nothing is pushed unless every
depth exists. -/
def copyFromDepths (depths : List Nat) : Action := do
  let s := (← get).stack
  match depths.mapM s.peekAt with
  | none => return false
  | some copies => pushAll copies; return true

/-- Move the elements at the given depths to the top, in order, each depth counted after the
removals before it. -/
def moveToTop (depths : List Nat) : Action := do
  if (← size) ≤ depths.foldl max 0 then return false
  match ← removeEach depths with
  | none => return false
  | some moved => pushAll moved; return true

def unary (f : Int64 → Int64) : Action := do
  match ← popNum with
  | none => return false
  | some a => pushNum (f a); return true

def binary (f : Int64 → Int64 → Int64) : Action := do
  if (← size) < 2 then return false
  let some b ← popNum | return false
  let some a ← popNum | return false
  pushNum (f a b)
  return true

def ofBool (b : Bool) : Int64 := if b then 1 else 0

def digest (f : Bytes → Bytes) : Action := do
  match ← pop with
  | none => return false
  | some e => push (f e); return true

def verify : Action := do
  match ← pop with
  | none => return false
  | some e => return ScriptNum.isTrue e

def toAltStack : Action := do
  match ← pop with
  | none => return false
  | some e => modify (fun m => { m with alt := m.alt.push e }); return true

def fromAltStack : Action := do
  let m ← get
  match m.alt.pop with
  | (none, _) => return false
  | (some e, alt) => set { m with alt := alt }; push e; return true

def twoDrop : Action := do
  if (← size) < 2 then return false
  let _ ← pop
  let _ ← pop
  return true

/-- Duplicate the top element when it is true. -/
def ifDup : Action := do
  match (← get).stack.peek with
  | none => return false
  | some top =>
    if ScriptNum.isTrue top then push top
    return true

def depthOp : Action := do
  pushNum (← size).toInt64
  return true

/-- Pop a number and use it as a depth into the rest of the stack. -/
def popDepth : StateM Machine (Option Nat) := do
  let some n ← popNum | return none
  if n < 0 ∨ n.toInt.toNat ≥ (← size) then return none
  return some n.toInt.toNat

def pick : Action := do
  match ← popDepth with
  | none => return false
  | some n => copyFromDepths [n]

def roll : Action := do
  match ← popDepth with
  | none => return false
  | some n => moveToTop [n]

/-- Copy the top element below the second: `x1 x2 → x2 x1 x2`. -/
def tuck : Action := do
  if (← size) < 2 then return false
  let m ← get
  match m.stack.peek with
  | none => return false
  | some top =>
    match m.stack.insertAt 2 top with
    | none => return false
    | some s => set { m with stack := s }; return true

def sizeOp : Action := do
  match (← get).stack.peek with
  | none => return false
  | some top => pushNum top.length.toInt64; return true

def equal : Action := do
  if (← size) < 2 then return false
  let a ← pop
  let b ← pop
  pushBool (a == b)
  return true

/-- `x min max → min ≤ x < max`; all three operands are popped before any is checked. -/
def within : Action := do
  if (← size) < 3 then return false
  let hi ← popNum
  let lo ← popNum
  let x ← popNum
  match hi, lo, x with
  | some hi, some lo, some x => pushBool (lo ≤ x && x < hi); return true
  | _, _, _ => return false

/-- Check a stack signature (DER and a hash-type byte) against a SEC public key and a message
hash. A key or signature that does not parse fails the check. -/
def checkSignature (sigHash : Nat) (sec sig : Bytes) : Bool :=
  if sig.isEmpty then false
  else
    match Point.parseSec sec, Signature.parseDer sig.dropLast with
    | .ok key, .ok s => key.verify sigHash s
    | _, _ => false

def checkSig : Action := do
  if (← size) < 2 then return false
  let some sec ← pop | return false
  let some sig ← pop | return false
  pushBool (checkSignature (← get).sigHash sec sig)
  return true

/-- Pop a count of at most `max`, no more than the elements left, then that many elements in the
order they were pushed. -/
def popCounted (max : Int64) : StateM Machine (Option (List Bytes)) := do
  let some count ← popNum | return none
  if count < 0 ∨ count > max ∨ count.toInt.toNat > (← size) then return none
  popMany count.toInt.toNat

/-- Whether each signature matches one of the keys, in order: a key that does not match the
current signature is passed over for every later one. -/
def matchInOrder (sigHash : Nat) : List Bytes → List Bytes → Bool
  | [], _ => true
  | sig :: sigs, keys =>
    match keys.dropWhile (fun key => !checkSignature sigHash key sig) with
    | [] => false
    | _ :: rest => matchInOrder sigHash sigs rest

/-- `<dummy> <sig>*m <m> <key>*n <n>`: pop up to 20 keys, up to that many signatures and the dummy
element, and push whether the signatures match keys in order. -/
def checkMultiSig : Action := do
  let some keys ← popCounted 20 | return false
  let some sigs ← popCounted keys.length.toInt64 | return false
  let some _ ← pop | return false
  pushBool (matchInOrder (← get).sigHash sigs keys)
  return true

/-- Run an action and then `verify`, unless the action failed. -/
def andVerify (a : Action) : Action := do
  if ← a then verify else return false

/-- The action of an opcode, if it has one. -/
def action? (code : UInt8) : Option Action :=
  match code.toNat with
  | 0x61 | 0xb0 | 0xb3 | 0xb4 | 0xb5 | 0xb6 | 0xb7 | 0xb8 | 0xb9 => some (return true)
  | 0x69 => some verify
  | 0x6a => some (return false)
  | 0x6b => some toAltStack
  | 0x6c => some fromAltStack
  | 0x6d => some twoDrop
  | 0x6e => some (copyFromDepths [1, 0])
  | 0x6f => some (copyFromDepths [2, 1, 0])
  | 0x70 => some (copyFromDepths [3, 2])
  | 0x71 => some (moveToTop [5, 4])
  | 0x72 => some (moveToTop [3, 2])
  | 0x73 => some ifDup
  | 0x74 => some depthOp
  | 0x75 => some (do return (← pop).isSome)
  | 0x76 => some (copyFromDepths [0])
  | 0x77 => some (do return (← removeAt 1).isSome)
  | 0x78 => some (copyFromDepths [1])
  | 0x79 => some pick
  | 0x7a => some roll
  | 0x7b => some (moveToTop [2])
  | 0x7c => some (moveToTop [1])
  | 0x7d => some tuck
  | 0x82 => some sizeOp
  | 0x87 => some equal
  | 0x88 => some (andVerify equal)
  | 0x8b => some (unary (· + 1))
  | 0x8c => some (unary (· - 1))
  | 0x8f => some (unary fun a => -a)
  | 0x90 => some (unary fun a => if a < 0 then -a else a)
  | 0x91 => some (unary fun a => ofBool (a = 0))
  | 0x92 => some (unary fun a => ofBool (a ≠ 0))
  | 0x93 => some (binary (· + ·))
  | 0x94 => some (binary (· - ·))
  | 0x9a => some (binary fun a b => ofBool (a ≠ 0 ∧ b ≠ 0))
  | 0x9b => some (binary fun a b => ofBool (a ≠ 0 ∨ b ≠ 0))
  | 0x9c => some (binary fun a b => ofBool (a = b))
  | 0x9d => some (andVerify (binary fun a b => ofBool (a = b)))
  | 0x9e => some (binary fun a b => ofBool (a ≠ b))
  | 0x9f => some (binary fun a b => ofBool (a < b))
  | 0xa0 => some (binary fun a b => ofBool (a > b))
  | 0xa1 => some (binary fun a b => ofBool (a ≤ b))
  | 0xa2 => some (binary fun a b => ofBool (a ≥ b))
  | 0xa3 => some (binary fun a b => if a ≤ b then a else b)
  | 0xa4 => some (binary fun a b => if a ≤ b then b else a)
  | 0xa5 => some within
  | 0xa6 => some (digest Digests.ripemd160)
  | 0xa7 => some (digest Digests.sha1)
  | 0xa8 => some (digest Digests.sha256)
  | 0xa9 => some (digest fun b => (Hash.hash160 b).toList)
  | 0xaa => some (digest Hash.hash256)
  | 0xac => some checkSig
  | 0xad => some (andVerify checkSig)
  | 0xae => some checkMultiSig
  | 0xaf => some (andVerify checkMultiSig)
  | _ => none

end Bitcoin.Semantics
