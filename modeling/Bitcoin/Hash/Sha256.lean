import Bitcoin.Hash.Word
/-! # SHA-256

The digest of FIPS 180-4: eight chaining words, a 64-word message schedule per block and 64
rounds. The digest is the chaining state after the last block, each word written big-endian.
-/

namespace Bitcoin.Hash.Sha256

/-- The eight working words `a` to `h` of one compression. -/
structure Registers where
  /-- Word `a`. -/
  a : UInt32
  /-- Word `b`. -/
  b : UInt32
  /-- Word `c`. -/
  c : UInt32
  /-- Word `d`. -/
  d : UInt32
  /-- Word `e`. -/
  e : UInt32
  /-- Word `f`. -/
  f : UInt32
  /-- Word `g`. -/
  g : UInt32
  /-- Word `h`. -/
  h : UInt32

/-- The chaining state before the first block: the first 32 bits of the fractional parts of the
square roots of the first eight primes. -/
def initial : Registers :=
  ⟨0x6a09e667, 0xbb67ae85, 0x3c6ef372, 0xa54ff53a, 0x510e527f, 0x9b05688c, 0x1f83d9ab, 0x5be0cd19⟩

/-- The round constants: the first 32 bits of the fractional parts of the cube roots of the first
64 primes. -/
def roundConstants : List UInt32 :=
  [0x428a2f98, 0x71374491, 0xb5c0fbcf, 0xe9b5dba5, 0x3956c25b, 0x59f111f1, 0x923f82a4, 0xab1c5ed5,
   0xd807aa98, 0x12835b01, 0x243185be, 0x550c7dc3, 0x72be5d74, 0x80deb1fe, 0x9bdc06a7, 0xc19bf174,
   0xe49b69c1, 0xefbe4786, 0x0fc19dc6, 0x240ca1cc, 0x2de92c6f, 0x4a7484aa, 0x5cb0a9dc, 0x76f988da,
   0x983e5152, 0xa831c66d, 0xb00327c8, 0xbf597fc7, 0xc6e00bf3, 0xd5a79147, 0x06ca6351, 0x14292967,
   0x27b70a85, 0x2e1b2138, 0x4d2c6dfc, 0x53380d13, 0x650a7354, 0x766a0abb, 0x81c2c92e, 0x92722c85,
   0xa2bfe8a1, 0xa81a664b, 0xc24b8b70, 0xc76c51a3, 0xd192e819, 0xd6990624, 0xf40e3585, 0x106aa070,
   0x19a4c116, 0x1e376c08, 0x2748774c, 0x34b0bcb5, 0x391c0cb3, 0x4ed8aa4a, 0x5b9cca4f, 0x682e6ff3,
   0x748f82ee, 0x78a5636f, 0x84c87814, 0x8cc70208, 0x90befffa, 0xa4506ceb, 0xbef9a3f7, 0xc67178f2]

def sigma0 (x : UInt32) : UInt32 := rotr x 7 ^^^ rotr x 18 ^^^ (x >>> 3)

def sigma1 (x : UInt32) : UInt32 := rotr x 17 ^^^ rotr x 19 ^^^ (x >>> 10)

def bigSigma0 (x : UInt32) : UInt32 := rotr x 2 ^^^ rotr x 13 ^^^ rotr x 22

def bigSigma1 (x : UInt32) : UInt32 := rotr x 6 ^^^ rotr x 11 ^^^ rotr x 25

/-- The 64-word schedule of a block: its 16 words, then each word from four earlier ones. -/
def schedule (block : List UInt32) : List UInt32 :=
  ((List.range 48).foldl
    (fun w i => w.push (sigma1 (w.getD (i + 14) 0) + w.getD (i + 9) 0 +
      sigma0 (w.getD (i + 1) 0) + w.getD i 0))
    block.toArray).toList

def round (r : Registers) (kw : UInt32 × UInt32) : Registers :=
  let choose := (r.e &&& r.f) ^^^ (~~~r.e &&& r.g)
  let majority := (r.a &&& r.b) ^^^ (r.a &&& r.c) ^^^ (r.b &&& r.c)
  let t1 := r.h + bigSigma1 r.e + choose + kw.1 + kw.2
  let t2 := bigSigma0 r.a + majority
  ⟨t1 + t2, r.a, r.b, r.c, r.d + t1, r.e, r.f, r.g⟩

/-- Compress one block into the chaining state. -/
def compress (s : Registers) (block : List UInt32) : Registers :=
  let r := (roundConstants.zip (schedule block)).foldl round s
  ⟨s.a + r.a, s.b + r.b, s.c + r.c, s.d + r.d, s.e + r.e, s.f + r.f, s.g + r.g, s.h + r.h⟩

def Registers.digest (s : Registers) : Bytes :=
  [s.a, s.b, s.c, s.d, s.e, s.f, s.g, s.h].flatMap wordBytesBE

theorem Registers.length_digest (s : Registers) : s.digest.length = 32 := by
  simp [Registers.digest, wordBytesBE]

/-- The SHA-256 digest of a message. -/
def hash (msg : Bytes) : Bytes :=
  ((blockWords true msg).foldl compress initial).digest

theorem length_hash (msg : Bytes) : (hash msg).length = 32 :=
  Registers.length_digest _

end Sha256

end Bitcoin.Hash
