import Bitcoin.Bytes
/-! # Thirty-two-bit words for the digest functions

The digests of this library work on 32-bit words read from 64-byte blocks. This module holds the
word conversions in both byte orders, the rotations, and the Merkle–Damgård padding shared by
SHA-256, SHA-1 and RIPEMD-160: a one bit, zeros up to 56 bytes modulo 64, then the message length
in bits as eight bytes.
-/

namespace Bitcoin.Hash

def rotl (w : UInt32) (n : UInt32) : UInt32 :=
  (w <<< n) ||| (w >>> (32 - n))

def rotr (w : UInt32) (n : UInt32) : UInt32 :=
  (w >>> n) ||| (w <<< (32 - n))

/-- Words read four bytes at a time, most significant byte first; a short tail is dropped. -/
def wordsBE : Bytes → List UInt32
  | b0 :: b1 :: b2 :: b3 :: rest =>
    ((b0.toUInt32 <<< 24) ||| (b1.toUInt32 <<< 16) ||| (b2.toUInt32 <<< 8) ||| b3.toUInt32) ::
      wordsBE rest
  | _ => []

/-- Words read four bytes at a time, least significant byte first; a short tail is dropped. -/
def wordsLE : Bytes → List UInt32
  | b0 :: b1 :: b2 :: b3 :: rest =>
    (b0.toUInt32 ||| (b1.toUInt32 <<< 8) ||| (b2.toUInt32 <<< 16) ||| (b3.toUInt32 <<< 24)) ::
      wordsLE rest
  | _ => []

def wordBytesBE (w : UInt32) : Bytes :=
  [(w >>> 24).toUInt8, (w >>> 16).toUInt8, (w >>> 8).toUInt8, w.toUInt8]

def wordBytesLE (w : UInt32) : Bytes :=
  [w.toUInt8, (w >>> 8).toUInt8, (w >>> 16).toUInt8, (w >>> 24).toUInt8]

/-- Pad a message to a whole number of 64-byte blocks: the byte `0x80`, zeros, and the length in
bits as eight bytes, big-endian when `bigEndian` holds and little-endian otherwise. -/
def pad (bigEndian : Bool) (msg : Bytes) : Bytes :=
  let zeros := (119 - msg.length % 64) % 64
  let bits := 8 * msg.length
  msg ++ 0x80 :: List.replicate zeros 0 ++ (if bigEndian then beBytes 8 bits else leBytes 8 bits)

def blockWords (bigEndian : Bool) (msg : Bytes) : List (List UInt32) :=
  (Bytes.blocks 64 (pad bigEndian msg)).map (if bigEndian then wordsBE else wordsLE)

end Bitcoin.Hash
