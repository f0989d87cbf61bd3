import Bitcoin.Merkle.Tree
import Bitcoin.Block.Header
/-! # Merkle blocks

A merkle block is a block header with a partial merkle tree: the number of transactions in the
block, the hashes of the tree's stream (in display order) and its flag bytes. On the wire it is
the header, a 32-bit total, VarInt-counted byte-reversed hashes and VarInt-prefixed flag bytes. It
is valid when the partial tree rebuilds to the header's merkle root; a stream that does not
rebuild a root is an error, not an invalid proof.
-/

namespace Bitcoin

variable [Digests]

/-- A block header with a partial merkle tree of its transactions. -/
structure MerkleBlock where
  /-- The block header. -/
  header : BlockHeader
  /-- The number of transactions in the block. -/
  total : UInt32
  /-- The hashes of the partial tree, in display order. -/
  hashes : List (FixedBytes 32)
  /-- The flag bytes of the partial tree. -/
  flags : Bytes

namespace MerkleBlock

/-- Parse a merkle block; bytes left over are an error. -/
def parse (bytes : Bytes) : Outcome MerkleBlock :=
  Decoder.parse (do
    let header ← BlockHeader.read
    let total ← Decoder.u32
    let count ← Decoder.varint
    let hashes ← Decoder.times Decoder.hashReversed count.toNat
    let flags ← Decoder.varBytes
    let r ← Decoder.reader
    if !r.finished then
      throw (.serialization s!"{r.remaining} trailing bytes after merkle block")
    return ⟨header, total, hashes, flags⟩) bytes

/-- Rebuild the partial tree and compare its root with the header's merkle root. -/
def isValid (mb : MerkleBlock) : Outcome Bool := do
  let tree ← MerkleTree.create mb.total.toNat
  let wireHashes := mb.hashes.map fun h => h.reverse.toList
  let (tree, err) := tree.populate (Merkle.bitField mb.flags) wireHashes
  if let some e := err then throw e
  match tree.root with
  | none => throw (.malformedMerkleProof "root not reconstructed")
  | some root => return root.reverse == mb.header.merkleRoot.toList

end MerkleBlock

end Bitcoin
