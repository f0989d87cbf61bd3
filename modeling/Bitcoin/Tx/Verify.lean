import Bitcoin.Tx.Store
import Bitcoin.Script.Interpreter
/-! # Fees, signature hashes and verification

The fee of a transaction is what its inputs spend less what its outputs create; a negative fee
makes it invalid. The legacy SIGHASH_ALL hash for an input serializes the transaction with every
unlocking script emptied except that input's, which is replaced by the locking script it spends
(or by the redeem script of a pay-to-script-hash spend), appends the hash type `01000000`, and
reads the HASH256 of it as a big-endian number. A transaction is valid when its fee is not
negative and every input's scripts validate, checked in order.
-/

namespace Bitcoin

variable [Digests]

namespace TxIn

/-- The output this input spends: a lookup error first, then an index past the outputs. -/
def prevOutput (i : TxIn) (source : TxSource) (network : Network) : Outcome TxOut := do
  let tx ← source i.prevTx network
  match tx.outputs[i.prevIndex.toNat]? with
  | some o => return o
  | none =>
    throw (.inputOutOfRange
      s!"output {i.prevIndex} of {tx.outputs.length} in {Bytes.toHex i.prevTx.toList}")

end TxIn

namespace Tx

def input (tx : Tx) (index : Nat) : Outcome TxIn :=
  match tx.inputs[index]? with
  | some i => .ok i
  | none => .error (.inputOutOfRange s!"input {index} of {tx.inputs.length}")

/-- The sum of the amounts the inputs spend, looked up in order. -/
def inputTotal (tx : Tx) (source : TxSource) : Outcome Int :=
  tx.inputs.foldlM (fun acc i => do return acc + (← i.prevOutput source tx.network).value.toNat) 0

def fitsInt64 (v : Int) : Bool := -9223372036854775808 ≤ v && v < 9223372036854775808

/-- The fee: spent amounts less created amounts, which must fit in a signed 64-bit word. -/
def fee (tx : Tx) (source : TxSource) : Outcome Int := do
  let spent ← tx.inputTotal source
  let created : Int := tx.outputs.foldl (fun acc o => acc + (o.value.toNat : Int)) 0
  let fee := spent - created
  if fitsInt64 fee then return fee
  else throw (.serialization "fee out of range")

/-- The bytes a SIGHASH_ALL signature of input `index` commits to: the transaction with the script
bytes `script` as that input's unlocking script and every other one empty, then the hash type
`01000000`. -/
def sigHashPreimage (tx : Tx) (index : Nat) (script : Bytes) : Bytes :=
  tx.serializeWith (fun i _ => if i = index then script else []) ++ [0x01, 0x00, 0x00, 0x00]

/-- The signature hash of input `index` with the script bytes `script` in place of its unlocking
script: the HASH256 of the preimage as a big-endian number. -/
def sigHashWithScript (tx : Tx) (index : Nat) (script : Bytes) : Nat :=
  Bytes.toNatBE (Hash.hash256 (tx.sigHashPreimage index script))

/-- The signature hash of an input, committing to the redeem script when one is given and to
the locking script of the spent output otherwise. -/
def sigHash (tx : Tx) (index : Nat) (redeem : Option Script) (source : TxSource) : Outcome Nat := do
  let input ← tx.input index
  match redeem with
  | some script => return tx.sigHashWithScript index script.raw
  | none =>
    let prev ← input.prevOutput source tx.network
    return tx.sigHashWithScript index prev.scriptPubkey

/-- Validate the scripts of one input against the output it spends. -/
def verifyInput (tx : Tx) (index : Nat) (source : TxSource) : Outcome Verdict := do
  let input ← tx.input index
  let prev ← input.prevOutput source tx.network
  verifyScript (.ofBytes input.scriptSig) (.ofBytes prev.scriptPubkey) fun redeem =>
    (pure (tx.sigHashWithScript index ((redeem.map Script.raw).getD prev.scriptPubkey)) :
      Outcome Nat)

/-- Validate the inputs from `index` on, in order, reporting the first that fails. -/
def verifyInputsFrom (tx : Tx) (source : TxSource) : Nat → List TxIn → Outcome Verdict
  | _, [] => .ok .valid
  | index, _ :: rest => do
    match ← tx.verifyInput index source with
    | .invalid reason => return .invalid s!"input {index}: {reason}"
    | .valid => tx.verifyInputsFrom source (index + 1) rest

/-- Validate a transaction: a fee that is not negative, then every input. -/
def verify (tx : Tx) (source : TxSource) : Outcome Verdict := do
  let fee ← tx.fee source
  if fee < 0 then return .invalid s!"negative fee {fee}"
  tx.verifyInputsFrom source 0 tx.inputs

end Tx

end Bitcoin
