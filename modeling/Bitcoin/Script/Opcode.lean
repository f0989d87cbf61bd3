/-! # Opcode bytes and their names

Every byte of a script is an opcode. Bytes `01` to `4b` push that many following bytes, `4c` to
`4e` push with a one-, two- or four-byte length, `4f` and `51` to `60` push the numbers -1 and 1
to 16, and the bytes from `61` to `b9` are named operations. Every other byte is unknown.
-/

namespace Bitcoin.Opcode

def zero : UInt8 := 0x00
def pushData1 : UInt8 := 0x4c
def pushData2 : UInt8 := 0x4d
def pushData4 : UInt8 := 0x4e
def oneNegate : UInt8 := 0x4f
/-- `OP_IF`: run the branch when the popped element is true. -/
def ifTrue : UInt8 := 0x63
/-- `OP_NOTIF`: run the branch when the popped element is false. -/
def ifFalse : UInt8 := 0x64
/-- `OP_VERIF`, which fails wherever it stands. -/
def verIf : UInt8 := 0x65
/-- `OP_VERNOTIF`, which fails wherever it stands. -/
def verNotIf : UInt8 := 0x66
def elseBranch : UInt8 := 0x67
def endIf : UInt8 := 0x68
def dup : UInt8 := 0x76
def equal : UInt8 := 0x87
def equalVerify : UInt8 := 0x88
def hash160 : UInt8 := 0xa9
def checkSig : UInt8 := 0xac

/-- The names of the operations `61` to `b9`, in byte order. -/
def operationNames : List String :=
  ["OP_NOP", "OP_VER", "OP_IF", "OP_NOTIF", "OP_VERIF", "OP_VERNOTIF", "OP_ELSE", "OP_ENDIF",
   "OP_VERIFY", "OP_RETURN", "OP_TOALTSTACK", "OP_FROMALTSTACK", "OP_2DROP", "OP_2DUP",
   "OP_3DUP", "OP_2OVER", "OP_2ROT", "OP_2SWAP", "OP_IFDUP", "OP_DEPTH", "OP_DROP", "OP_DUP",
   "OP_NIP", "OP_OVER", "OP_PICK", "OP_ROLL", "OP_ROT", "OP_SWAP", "OP_TUCK", "OP_CAT",
   "OP_SUBSTR", "OP_LEFT", "OP_RIGHT", "OP_SIZE", "OP_INVERT", "OP_AND", "OP_OR", "OP_XOR",
   "OP_EQUAL", "OP_EQUALVERIFY", "OP_RESERVED1", "OP_RESERVED2", "OP_1ADD", "OP_1SUB",
   "OP_2MUL", "OP_2DIV", "OP_NEGATE", "OP_ABS", "OP_NOT", "OP_0NOTEQUAL", "OP_ADD", "OP_SUB",
   "OP_MUL", "OP_DIV", "OP_MOD", "OP_LSHIFT", "OP_RSHIFT", "OP_BOOLAND", "OP_BOOLOR",
   "OP_NUMEQUAL", "OP_NUMEQUALVERIFY", "OP_NUMNOTEQUAL", "OP_LESSTHAN", "OP_GREATERTHAN",
   "OP_LESSTHANOREQUAL", "OP_GREATERTHANOREQUAL", "OP_MIN", "OP_MAX", "OP_WITHIN",
   "OP_RIPEMD160", "OP_SHA1", "OP_SHA256", "OP_HASH160", "OP_HASH256", "OP_CODESEPARATOR",
   "OP_CHECKSIG", "OP_CHECKSIGVERIFY", "OP_CHECKMULTISIG", "OP_CHECKMULTISIGVERIFY", "OP_NOP1",
   "OP_CHECKLOCKTIMEVERIFY", "OP_CHECKSEQUENCEVERIFY", "OP_NOP4", "OP_NOP5", "OP_NOP6",
   "OP_NOP7", "OP_NOP8", "OP_NOP9", "OP_NOP10"]

/-- The canonical name of an opcode byte. -/
def name (code : UInt8) : String :=
  let c := code.toNat
  if c = 0 then "OP_0"
  else if c ≤ 0x4b then "OP_PUSHBYTES"
  else if c = 0x4c then "OP_PUSHDATA1"
  else if c = 0x4d then "OP_PUSHDATA2"
  else if c = 0x4e then "OP_PUSHDATA4"
  else if c = 0x4f then "OP_1NEGATE"
  else if c = 0x50 then "OP_RESERVED"
  else if c ≤ 0x60 then "OP_" ++ toString (c - 0x50)
  else operationNames.getD (c - 0x61) "OP_UNKNOWN"

end Bitcoin.Opcode
