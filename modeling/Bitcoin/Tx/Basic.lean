import Bitcoin.Script.Basic
import Bitcoin.Hash
import Bitcoin.Network
/-! # Transactions

On the wire a transaction is a 32-bit version, a VarInt count of inputs, the inputs, a VarInt count
of outputs, the outputs and a 32-bit lock time. An input names the spent output by transaction id
(byte-reversed on the wire) and index, with its unlocking script and a sequence number; an output
is a 64-bit amount and a locking script. Scripts are kept as the bytes the transaction carries.
The id is the HASH256 of the bytes, shown reversed.
-/

namespace Bitcoin

variable [Digests]

/-- An input: the output it spends and the script that unlocks it. -/
structure TxIn where
  /-- The id of the transaction whose output is spent, in display order. -/
  prevTx : FixedBytes 32
  /-- The index of the spent output in that transaction. -/
  prevIndex : UInt32
  /-- The bytes of the unlocking script. -/
  scriptSig : Bytes
  /-- The sequence number. -/
  sequence : UInt32

/-- An output: an amount and the script that locks it. -/
structure TxOut where
  /-- The amount, in satoshi. -/
  value : UInt64
  /-- The bytes of the locking script. -/
  scriptPubkey : Bytes

/-- A transaction of a network. -/
structure Tx where
  /-- The version. -/
  version : UInt32
  /-- The inputs, in order. -/
  inputs : List TxIn
  /-- The outputs, in order. -/
  outputs : List TxOut
  /-- The lock time. -/
  lockTime : UInt32
  /-- The network the transaction belongs to. -/
  network : Network

namespace TxIn

def read : Decoder TxIn := do
  let prevTx ← Decoder.hashReversed
  let prevIndex ← Decoder.u32
  let scriptSig ← Decoder.varBytes
  let sequence ← Decoder.u32
  return ⟨prevTx, prevIndex, scriptSig, sequence⟩

/-- The bytes of an input with the given unlocking script in place of its own. -/
def serializeWith (i : TxIn) (scriptSig : Bytes) : Bytes :=
  i.prevTx.reverse.toList ++ leBytes 4 i.prevIndex.toNat ++ lengthPrefixed scriptSig ++
    leBytes 4 i.sequence.toNat

def serialize (i : TxIn) : Bytes := i.serializeWith i.scriptSig

def display (i : TxIn) : String :=
  Bytes.toHex i.prevTx.toList ++ ":" ++ toString i.prevIndex

end TxIn

namespace TxOut

def read : Decoder TxOut := do
  let value ← Decoder.u64
  let scriptPubkey ← Decoder.varBytes
  return ⟨value, scriptPubkey⟩

def serialize (o : TxOut) : Bytes :=
  leBytes 8 o.value.toNat ++ lengthPrefixed o.scriptPubkey

def display (o : TxOut) : String :=
  toString o.value ++ ":" ++ (Script.ofBytes o.scriptPubkey).display

end TxOut

namespace Tx

def read (network : Network) : Decoder Tx := do
  let version ← Decoder.u32
  let inputCount ← Decoder.varint
  let inputs ← Decoder.times TxIn.read inputCount.toNat
  let outputCount ← Decoder.varint
  let outputs ← Decoder.times TxOut.read outputCount.toNat
  let lockTime ← Decoder.u32
  return ⟨version, inputs, outputs, lockTime, network⟩

/-- Parse a whole transaction; bytes left over are an error. -/
def parse (bytes : Bytes) (network : Network) : Outcome Tx :=
  Decoder.parse (do
    let tx ← read network
    let r ← Decoder.reader
    if !r.finished then
      throw (.serialization s!"{r.remaining} trailing bytes after transaction")
    return tx) bytes

/-- The bytes of a transaction whose unlocking scripts are replaced by `scriptFor i input`. -/
def serializeWith (tx : Tx) (scriptFor : Nat → TxIn → Bytes) : Bytes :=
  leBytes 4 tx.version.toNat ++ encodeVarint tx.inputs.length.toUInt64 ++
    (tx.inputs.zipIdx.flatMap fun (input, i) => input.serializeWith (scriptFor i input)) ++
    encodeVarint tx.outputs.length.toUInt64 ++ tx.outputs.flatMap TxOut.serialize ++
    leBytes 4 tx.lockTime.toNat

def serialize (tx : Tx) : Bytes :=
  tx.serializeWith fun _ input => input.scriptSig

def hash (tx : Tx) : FixedBytes 32 := Hash.hash256Reversed tx.serialize

def id (tx : Tx) : String := Bytes.toHex tx.hash.toList

/-- Whether the transaction mints coins: a single input spending output `ffffffff` of the all-zero
id. -/
def isCoinbase (tx : Tx) : Bool :=
  match tx.inputs with
  | [input] => input.prevTx == FixedBytes.zero 32 && input.prevIndex == 0xffffffff
  | _ => false

/-- How a transaction is shown: its id, version, inputs, outputs and lock time, one per line. -/
def display (tx : Tx) : String :=
  "tx: " ++ tx.id ++ "\nversion: " ++ toString tx.version ++ "\ninputs:\n" ++
    String.join (tx.inputs.map fun i => "  " ++ i.display ++ "\n") ++ "outputs:\n" ++
    String.join (tx.outputs.map fun o => "  " ++ o.display ++ "\n") ++
    "locktime: " ++ toString tx.lockTime

end Tx

end Bitcoin
