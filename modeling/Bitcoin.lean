import Bitcoin.Bytes
import Bitcoin.Error
import Bitcoin.Network
import Bitcoin.Hash
import Bitcoin.Base58
import Bitcoin.Field
import Bitcoin.Curve.Point
import Bitcoin.Curve.Sec
import Bitcoin.Signature
import Bitcoin.Key
import Bitcoin.Wire.Reader
import Bitcoin.Script.Num
import Bitcoin.Script.Opcode
import Bitcoin.Script.Basic
import Bitcoin.Script.Stack
import Bitcoin.Script.Machine
import Bitcoin.Script.Semantics
import Bitcoin.Script.Interpreter
import Bitcoin.Tx.Basic
import Bitcoin.Tx.Store
import Bitcoin.Tx.Verify
import Bitcoin.Block.Header
import Bitcoin.Merkle.Basic
import Bitcoin.Merkle.Tree
import Bitcoin.Merkle.Block
import Bitcoin.Proofs.Field
import Bitcoin.Proofs.Primality
import Bitcoin.Proofs.Curve.Group
import Bitcoin.Proofs.Curve.Scalar
import Bitcoin.Proofs.Curve.Law
import Bitcoin.Proofs.Curve.SecCanonical
import Bitcoin.Proofs.Ecdsa
import Bitcoin.Proofs.Base58
import Bitcoin.Proofs.Bytes
import Bitcoin.Proofs.Wire.Decode
import Bitcoin.Proofs.Wire.Varint
import Bitcoin.Proofs.Script.Decode
import Bitcoin.Proofs.Script.Append
import Bitcoin.Proofs.Signature
import Bitcoin.Proofs.Curve.Sec
import Bitcoin.Proofs.Script.Run
import Bitcoin.Proofs.Script.P2pkh
import Bitcoin.Proofs.Tx.Spend
import Bitcoin.Proofs.Tx.Commitment
import Bitcoin.Proofs.Tx.Fee
import Bitcoin.Proofs.Tx.Wire
import Bitcoin.Proofs.Script.Verify
import Bitcoin.Proofs.Script.Multisig
import Bitcoin.Proofs.Script.MultisigLayout
import Bitcoin.Proofs.Tx.Multisig
import Bitcoin.Proofs.Script.Blocks
import Bitcoin.Proofs.Script.Conditions
import Bitcoin.Proofs.Merkle.Traversal
import Bitcoin.Proofs.Merkle.Rebuild
import Bitcoin.Proofs.Merkle.Builder
import Bitcoin.Proofs.Script.Number
import Bitcoin.Proofs.Script.Arith
import Bitcoin.Proofs.Script.Shuffle
import Bitcoin.Proofs.Merkle.Bounds
import Bitcoin.Proofs.Merkle.Shape
