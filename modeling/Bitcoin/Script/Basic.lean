import Bitcoin.Script.Num
import Bitcoin.Script.Opcode
import Bitcoin.Wire.Reader
/-! # Scripts and their operations

A script is a byte string that splits into operations: pushes of data and other opcodes. Pushes
of `OP_0`, `OP_1NEGATE` and `OP_1` to `OP_16` decode to the data they push. A script is known
either by its bytes, whose operations are decoded on demand, or by a list of operations, whose
bytes write each push in its shortest form. A script built from operations keeps them as given,
so its operations are exactly those even where its bytes would decode otherwise.
-/

namespace Bitcoin

/-- One element of a script. -/
inductive Operation where
  /-- Push a byte string onto the stack. -/
  | push (data : Bytes)
  /-- Any other opcode, run when the script executes. -/
  | code (byte : UInt8)
  deriving Repr, DecidableEq

namespace Operation

/-- The bytes of an operation; a push takes its shortest form: `OP_0` for the empty string, a
direct length below `0x4c`, else `OP_PUSHDATA1`, `OP_PUSHDATA2` or `OP_PUSHDATA4`. -/
def encode : Operation → Bytes
  | code c => [c]
  | push data =>
    let n := data.length
    let header :=
      if n = 0 then [Opcode.zero]
      else if n < 0x4c then [n.toUInt8]
      else if n ≤ 0xff then [Opcode.pushData1, n.toUInt8]
      else if n ≤ 0xffff then Opcode.pushData2 :: leBytes 2 n
      else Opcode.pushData4 :: leBytes 4 n
    header ++ data

/-- How an operation is shown: `OP_0` for an empty push, hexadecimal for other pushes, and the
opcode's name otherwise. -/
def display : Operation → String
  | push [] => "OP_0"
  | push data => Bytes.toHex data
  | code c => Opcode.name c

def isPush : Operation → Bool
  | push _ => true
  | code _ => false

end Operation

namespace Operation

/-- Read `len` pushed bytes, or fail naming the offset and the bytes that remain. -/
def pushData (len : Nat) : Decoder Operation := do
  let r ← Decoder.reader
  if len > r.remaining then
    throw (.scriptParse
      s!"push of {len} bytes at offset {r.position} exceeds remaining {r.remaining}")
  return push (← Decoder.slice len)

/-- Report a missing push length as a parse failure, keeping the read error's text. -/
def truncatedLength (d : Decoder Nat) : Decoder Nat :=
  tryCatch d fun e => throw (.scriptParse ("truncated push length: " ++ e.message))

/-- Decode the operation that starts with the opcode byte `c`. -/
def ofOpcode (c : UInt8) : Decoder Operation :=
  if c = Opcode.zero then return push []
  else if c ≤ 0x4b then pushData c.toNat
  else if c = Opcode.pushData1 then do pushData (← truncatedLength (UInt8.toNat <$> Decoder.u8))
  else if c = Opcode.pushData2 then do
    pushData (← truncatedLength (UInt16.toNat <$> Decoder.u16))
  else if c = Opcode.pushData4 then do
    pushData (← truncatedLength (UInt32.toNat <$> Decoder.u32))
  else if c = Opcode.oneNegate then return push (ScriptNum.encode (-1))
  else if 0x51 ≤ c ∧ c ≤ 0x60 then return push (ScriptNum.encode (c - 0x50).toUInt64.toInt64)
  else return code c

end Operation

/-- Decode operations until the reader is exhausted; `fuel` bounds the count and is at least the
number of bytes left, since every operation consumes its opcode byte. -/
def decodeOperations : Nat → Decoder (List Operation)
  | 0 => return []
  | fuel + 1 => do
    if (← Decoder.reader).finished then return []
    let c ← Decoder.u8
    let op ← Operation.ofOpcode c
    let rest ← decodeOperations fuel
    return op :: rest

/-- A script: bytes whose operations are decoded when asked for, or a list of operations. -/
inductive Script where
  /-- A script known by its bytes. -/
  | ofBytes (raw : Bytes)
  /-- A script assembled from operations. -/
  | ofOperations (ops : List Operation)
  deriving Repr

namespace Script

def raw : Script → Bytes
  | ofBytes r => r
  | ofOperations ops => ops.flatMap Operation.encode

/-- Split script bytes into operations; a push that runs past the end is a parse failure. -/
def decode (raw : Bytes) : Outcome (List Operation) :=
  (decodeOperations raw.length).parse raw

/-- The operations of a script: those it was built from, or its bytes decoded. -/
def operations : Script → Outcome (List Operation)
  | ofBytes r => decode r
  | ofOperations ops => .ok ops

def p2pkh (h160 : FixedBytes 20) : Script :=
  ofOperations [.code Opcode.dup, .code Opcode.hash160, .push h160.toList, .code Opcode.equalVerify,
    .code Opcode.checkSig]

def p2sh (h160 : FixedBytes 20) : Script :=
  ofOperations [.code Opcode.hash160, .push h160.toList, .code Opcode.equal]

/-- Whether the operations are exactly `OP_HASH160 <20 bytes> OP_EQUAL`. -/
def isP2sh (s : Script) : Bool :=
  match s.operations with
  | .ok [.code a, .push h, .code b] => a = Opcode.hash160 && h.length = 20 && b = Opcode.equal
  | _ => false

/-- Whether the operations are exactly `OP_DUP OP_HASH160 <20 bytes> OP_EQUALVERIFY OP_CHECKSIG`. -/
def isP2pkh (s : Script) : Bool :=
  match s.operations with
  | .ok [.code a, .code b, .push h, .code c, .code d] =>
    a = Opcode.dup && b = Opcode.hash160 && h.length = 20 && c = Opcode.equalVerify &&
      d = Opcode.checkSig
  | _ => false

/-- Whether the script decodes and every operation is a push. -/
def isPushOnly (s : Script) : Bool :=
  match s.operations with
  | .ok ops => ops.all Operation.isPush
  | .error _ => false

def isEmpty (s : Script) : Bool := s.raw.isEmpty

def serialize (s : Script) : Bytes :=
  lengthPrefixed s.raw

def read : Decoder Script := do
  return ofBytes (← Decoder.varBytes)

/-- Two scripts run one after the other: the bytes of both. -/
def append (a b : Script) : Script := ofBytes (a.raw ++ b.raw)

/-- How a script is shown: its operations separated by spaces, or `<undecodable HEX>`. -/
def display (s : Script) : String :=
  match s.operations with
  | .ok ops => " ".intercalate (ops.map Operation.display)
  | .error _ => "<undecodable " ++ Bytes.toHex s.raw ++ ">"

end Script

end Bitcoin
