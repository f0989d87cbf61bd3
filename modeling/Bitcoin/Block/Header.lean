import Bitcoin.Wire.Reader
import Bitcoin.Hash
/-! # Block headers

A block header is 80 bytes: version, previous block id and merkle root (both byte-reversed on the
wire), timestamp, the compact target `bits` and the nonce. The compact target is a three-byte
little-endian coefficient and a one-byte exponent, meaning `coefficient · 256^(exponent - 3)`.
A header has proof of work when its HASH256, read little-endian, is below the target; its
difficulty is the lowest-difficulty target `0xffff · 256²⁶` divided by its own.
-/

namespace Bitcoin

variable [Digests]

def headerSize : Nat := 80

/-- The target a compact `bits` field stands for; an exponent below 3 shifts the coefficient
right. -/
def bitsToTarget (bits : Bytes) : Nat :=
  let exponent := (bits.getD 3 0).toNat
  let coefficient := Bytes.toNatLE (bits.take 3)
  if exponent ≥ 3 then coefficient <<< (8 * (exponent - 3))
  else coefficient >>> (8 * (3 - exponent))

/-- A block header. -/
structure BlockHeader where
  /-- The version, whose top bits signal soft forks. -/
  version : UInt32
  /-- The id of the previous block, in display order. -/
  prevBlock : FixedBytes 32
  /-- The merkle root of the block's transactions, in display order. -/
  merkleRoot : FixedBytes 32
  /-- The timestamp. -/
  timestamp : UInt32
  /-- The compact target. -/
  bits : FixedBytes 4
  /-- The nonce. -/
  nonce : FixedBytes 4

namespace BlockHeader

def read : Decoder BlockHeader := do
  let version ← Decoder.u32
  let prevBlock ← Decoder.hashReversed
  let merkleRoot ← Decoder.hashReversed
  let timestamp ← Decoder.u32
  let bits ← Decoder.fixed 4
  let nonce ← Decoder.fixed 4
  return ⟨version, prevBlock, merkleRoot, timestamp, bits, nonce⟩

/-- Parse exactly one 80-byte header. -/
def parse (bytes : Bytes) : Outcome BlockHeader :=
  if bytes.length ≠ headerSize then
    .error (.serialization s!"block header must be {headerSize} bytes, got {bytes.length}")
  else read.parse bytes

def serialize (h : BlockHeader) : Bytes :=
  leBytes 4 h.version.toNat ++ h.prevBlock.reverse.toList ++ h.merkleRoot.reverse.toList ++
    leBytes 4 h.timestamp.toNat ++ h.bits.toList ++ h.nonce.toList

def hash (h : BlockHeader) : FixedBytes 32 := Hash.hash256Reversed h.serialize

def id (h : BlockHeader) : String := Bytes.toHex h.hash.toList

/-- Version bits signalling: the top three bits are `001`. -/
def bip9 (h : BlockHeader) : Bool := h.version >>> 29 == 1

def bip91 (h : BlockHeader) : Bool := (h.version >>> 4) &&& 1 == 1

def bip141 (h : BlockHeader) : Bool := (h.version >>> 1) &&& 1 == 1

def target (h : BlockHeader) : Nat := bitsToTarget h.bits.toList

/-- The lowest-difficulty target divided by the header's, rounded down; zero for a zero target. -/
def difficulty (h : BlockHeader) : Nat :=
  let t := h.target
  if t = 0 then 0 else (0xffff <<< (8 * 26)) / t

/-- Whether the header's HASH256, read little-endian, is below its target. -/
def hasProofOfWork (h : BlockHeader) : Bool :=
  Bytes.toNatLE (Hash.hash256 h.serialize) < h.target

end BlockHeader

end Bitcoin
