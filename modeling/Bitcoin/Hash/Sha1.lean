import Bitcoin.Hash.Word
/-! # SHA-1

The digest of FIPS 180-4, kept for the script operation that asks for it: five chaining words, an
80-word schedule per block and four groups of twenty rounds.
-/

namespace Bitcoin.Hash.Sha1

/-- The five working words `a` to `e`. -/
structure Registers where
  /-- Word `a`. -/
  a : UInt32
  /-- Word `b`. -/
  b : UInt32
  /-- Word `c`. -/
  c : UInt32
  /-- Word `d`. -/
  d : UInt32
  /-- Word `e`. -/
  e : UInt32

def initial : Registers := ⟨0x67452301, 0xefcdab89, 0x98badcfe, 0x10325476, 0xc3d2e1f0⟩

/-- The 80-word schedule: the block's 16 words, then each word the rotated sum of four earlier. -/
def schedule (block : List UInt32) : List UInt32 :=
  ((List.range 64).foldl
    (fun w i => w.push (rotl (w.getD (i + 13) 0 ^^^ w.getD (i + 8) 0 ^^^
      w.getD (i + 2) 0 ^^^ w.getD i 0) 1))
    block.toArray).toList

/-- The mixing function and constant of round `t`. -/
def mix (t : Nat) (b c d : UInt32) : UInt32 × UInt32 :=
  if t < 20 then ((b &&& c) ||| (~~~b &&& d), 0x5a827999)
  else if t < 40 then (b ^^^ c ^^^ d, 0x6ed9eba1)
  else if t < 60 then ((b &&& c) ||| (b &&& d) ||| (c &&& d), 0x8f1bbcdc)
  else (b ^^^ c ^^^ d, 0xca62c1d6)

def round (r : Registers) (tw : Nat × UInt32) : Registers :=
  let (f, k) := mix tw.1 r.b r.c r.d
  ⟨rotl r.a 5 + f + r.e + k + tw.2, r.a, rotl r.b 30, r.c, r.d⟩

/-- Compress one block into the chaining state. -/
def compress (s : Registers) (block : List UInt32) : Registers :=
  let r := ((List.range 80).zip (schedule block)).foldl round s
  ⟨s.a + r.a, s.b + r.b, s.c + r.c, s.d + r.d, s.e + r.e⟩

def Registers.digest (s : Registers) : Bytes :=
  [s.a, s.b, s.c, s.d, s.e].flatMap wordBytesBE

/-- The SHA-1 digest of a message. -/
def hash (msg : Bytes) : Bytes :=
  ((blockWords true msg).foldl compress initial).digest

end Sha1

end Bitcoin.Hash
