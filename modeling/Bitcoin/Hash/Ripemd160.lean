import Bitcoin.Hash.Word
/-! # RIPEMD-160

The 160-bit digest used inside HASH160. Each block runs two lines of 80 steps side by side, over
little-endian words, and the lines are folded into the chaining state crosswise.
-/

namespace Bitcoin.Hash.Ripemd160

/-- The five words of a line or of the chaining state. -/
structure Registers where
  /-- Word `a`. -/
  a : UInt32
  /-- Word `b`. -/
  b : UInt32
  /-- Word `c`. -/
  c : UInt32
  /-- Word `d`. -/
  d : UInt32
  /-- Word `e`. -/
  e : UInt32

def initial : Registers := ⟨0x67452301, 0xefcdab89, 0x98badcfe, 0x10325476, 0xc3d2e1f0⟩

def leftWord : List Nat :=
  [0, 1, 2, 3, 4, 5, 6, 7, 8, 9, 10, 11, 12, 13, 14, 15,
   7, 4, 13, 1, 10, 6, 15, 3, 12, 0, 9, 5, 2, 14, 11, 8,
   3, 10, 14, 4, 9, 15, 8, 1, 2, 7, 0, 6, 13, 11, 5, 12,
   1, 9, 11, 10, 0, 8, 12, 4, 13, 3, 7, 15, 14, 5, 6, 2,
   4, 0, 5, 9, 7, 12, 2, 10, 14, 1, 3, 8, 11, 6, 15, 13]

def rightWord : List Nat :=
  [5, 14, 7, 0, 9, 2, 11, 4, 13, 6, 15, 8, 1, 10, 3, 12,
   6, 11, 3, 7, 0, 13, 5, 10, 14, 15, 8, 12, 4, 9, 1, 2,
   15, 5, 1, 3, 7, 14, 6, 9, 11, 8, 12, 2, 10, 0, 4, 13,
   8, 6, 4, 1, 3, 11, 15, 0, 5, 12, 2, 13, 9, 7, 10, 14,
   12, 15, 10, 4, 1, 5, 8, 7, 6, 2, 13, 14, 0, 3, 9, 11]

def leftShift : List UInt32 :=
  [11, 14, 15, 12, 5, 8, 7, 9, 11, 13, 14, 15, 6, 7, 9, 8,
   7, 6, 8, 13, 11, 9, 7, 15, 7, 12, 15, 9, 11, 7, 13, 12,
   11, 13, 6, 7, 14, 9, 13, 15, 14, 8, 13, 6, 5, 12, 7, 5,
   11, 12, 14, 15, 14, 15, 9, 8, 9, 14, 5, 6, 8, 6, 5, 12,
   9, 15, 5, 11, 6, 8, 13, 12, 5, 12, 13, 14, 11, 8, 5, 6]

def rightShift : List UInt32 :=
  [8, 9, 9, 11, 13, 15, 15, 5, 7, 7, 8, 11, 14, 14, 12, 6,
   9, 13, 15, 7, 12, 8, 9, 11, 7, 7, 12, 7, 6, 15, 13, 11,
   9, 7, 15, 11, 8, 6, 6, 14, 12, 13, 5, 14, 13, 13, 7, 5,
   15, 5, 8, 11, 14, 14, 6, 14, 6, 9, 12, 9, 12, 5, 15, 8,
   8, 5, 12, 9, 12, 5, 14, 6, 8, 13, 6, 5, 15, 13, 11, 11]

/-- The five boolean functions, one per group of sixteen steps. -/
def boolean (group : Nat) (x y z : UInt32) : UInt32 :=
  match group with
  | 0 => x ^^^ y ^^^ z
  | 1 => (x &&& y) ||| (~~~x &&& z)
  | 2 => (x ||| ~~~y) ^^^ z
  | 3 => (x &&& z) ||| (y &&& ~~~z)
  | _ => x ^^^ (y ||| ~~~z)

def leftConstant (group : Nat) : UInt32 :=
  match group with
  | 0 => 0x00000000
  | 1 => 0x5a827999
  | 2 => 0x6ed9eba1
  | 3 => 0x8f1bbcdc
  | _ => 0xa953fd4e

def rightConstant (group : Nat) : UInt32 :=
  match group with
  | 0 => 0x50a28be6
  | 1 => 0x5c4dd124
  | 2 => 0x6d703ef3
  | 3 => 0x7a6d76e9
  | _ => 0x00000000

/-- One step of a line: mix in the message word `x` with function `f`, constant `k` and
rotation `s`. -/
def step (r : Registers) (f : UInt32) (x k s : UInt32) : Registers :=
  let t := rotl (r.a + f + x + k) s + r.e
  ⟨r.e, t, r.b, rotl r.c 10, r.d⟩

def lines (s : Registers) (x : Array UInt32) : Registers × Registers :=
  (List.range 80).foldl
    (fun (lr : Registers × Registers) j =>
      let (l, r) := lr
      let g := j / 16
      let l' := step l (boolean g l.b l.c l.d) (x.getD (leftWord.getD j 0) 0) (leftConstant g)
        (leftShift.getD j 0)
      let r' := step r (boolean (4 - g) r.b r.c r.d) (x.getD (rightWord.getD j 0) 0)
        (rightConstant g) (rightShift.getD j 0)
      (l', r'))
    (s, s)

/-- Compress one block into the chaining state. -/
def compress (s : Registers) (block : List UInt32) : Registers :=
  let (l, r) := lines s block.toArray
  ⟨s.b + l.c + r.d, s.c + l.d + r.e, s.d + l.e + r.a, s.e + l.a + r.b, s.a + l.b + r.c⟩

def Registers.digest (s : Registers) : Bytes :=
  [s.a, s.b, s.c, s.d, s.e].flatMap wordBytesLE

theorem Registers.length_digest (s : Registers) : s.digest.length = 20 := by
  simp [Registers.digest, wordBytesLE]

/-- The RIPEMD-160 digest of a message. -/
def hash (msg : Bytes) : Bytes :=
  ((blockWords false msg).foldl compress initial).digest

theorem length_hash (msg : Bytes) : (hash msg).length = 20 :=
  Registers.length_digest _

end Ripemd160

end Bitcoin.Hash
