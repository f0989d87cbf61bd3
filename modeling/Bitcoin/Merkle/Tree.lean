import Bitcoin.Merkle.Basic
import Bitcoin.Error
/-! # Partial merkle trees

A merkle block proves that transactions are in a block by a depth-first stream of flag bits and
hashes from which the root is rebuilt. The tree over `total` leaves has levels `0` (the root) to
`maxDepth`, level `d` with `⌈total / 2^(maxDepth - d)⌉` slots, and a cursor walks it. A leaf takes
a flag bit and a hash; an inner node takes a bit, descending on 1 and taking a hash on 0, and
becomes its children's parent once they are known. Every hash must be used.
-/

namespace Bitcoin

variable [Digests]

/-- The most transactions a block can hold: four million weight units over 240 per
transaction. -/
def maxBlockTransactions : Nat := 16666

/-- `⌈log₂ n⌉`, and zero for `n ≤ 1`. -/
def ceilLog2 (n : Nat) : Nat :=
  if n ≤ 1 then 0 else Nat.log2 (n - 1) + 1

/-- A partially known merkle tree with a cursor. -/
structure MerkleTree where
  /-- The number of leaves. -/
  total : Nat
  /-- The depth of the leaves. -/
  maxDepth : Nat
  /-- The slots of each level, root level first. -/
  levels : Array (Array (Option Bytes))
  /-- The cursor's depth. -/
  depth : Nat := 0
  /-- The cursor's index within its level. -/
  index : Nat := 0

namespace MerkleTree

/-- An empty tree over `total` leaves, with the cursor at the root; `total` must lie in
`[1, 16666]`. -/
def create (total : Nat) : Outcome MerkleTree :=
  if total = 0 then .error (.malformedMerkleProof "tree must have at least one leaf")
  else if total > maxBlockTransactions then
    .error (.malformedMerkleProof
      s!"{total} transactions exceeds the block limit of {maxBlockTransactions}")
  else
    let maxDepth := ceilLog2 total
    let width (d : Nat) := 1 <<< (maxDepth - d)
    let levels := (List.range (maxDepth + 1)).toArray.map fun d =>
      Array.replicate ((total + width d - 1) / width d) none
    .ok ⟨total, maxDepth, levels, 0, 0⟩

/-- Move the cursor to the parent; at the root it stays at depth zero. -/
def up (t : MerkleTree) : MerkleTree := { t with depth := t.depth - 1, index := t.index / 2 }

def left (t : MerkleTree) : MerkleTree := { t with depth := t.depth + 1, index := t.index * 2 }

def right (t : MerkleTree) : MerkleTree :=
  { t with depth := t.depth + 1, index := t.index * 2 + 1 }

def slot? (t : MerkleTree) (depth index : Nat) : Option (Option Bytes) :=
  (t.levels[depth]?).bind (·[index]?)

def root (t : MerkleTree) : Option Bytes := (t.slot? 0 0).join

def current (t : MerkleTree) : Option Bytes := (t.slot? t.depth t.index).join

def setCurrent (t : MerkleTree) (h : Bytes) : MerkleTree :=
  { t with levels := t.levels.modify t.depth (·.setIfInBounds t.index (some h)) }

def leftChild (t : MerkleTree) : Option Bytes := (t.slot? (t.depth + 1) (t.index * 2)).join

def rightChild (t : MerkleTree) : Option Bytes := (t.slot? (t.depth + 1) (t.index * 2 + 1)).join

def isLeaf (t : MerkleTree) : Bool := t.depth == t.maxDepth

/-- Whether the cursor's node has a right child slot; the last node of a level with an odd
count below it has none. -/
def rightExists (t : MerkleTree) : Bool :=
  match t.levels[t.depth + 1]? with
  | some level => level.size > t.index * 2 + 1
  | none => false

/-- The state of a rebuild: the tree and the flag bits and hashes not yet used. -/
structure Walk where
  /-- The tree being filled. -/
  tree : MerkleTree
  /-- The flag bits left. -/
  flags : List Bool
  /-- The hashes left. -/
  hashes : List Bytes

/-- A rebuild in progress; a failure keeps the tree as far as it was filled. -/
abbrev Rebuild (α : Type) := EStateM Error Walk α

namespace Rebuild

def nextFlag : Rebuild Bool := do
  let w ← get
  match w.flags with
  | [] => throw (.malformedMerkleProof "ran out of flag bits")
  | f :: fs => set { w with flags := fs }; return f

/-- Record the next hash at the cursor and move up. -/
def placeNextHash : Rebuild Unit := do
  let w ← get
  match w.hashes with
  | [] => throw (.malformedMerkleProof "ran out of hashes")
  | h :: hs => set { w with tree := (w.tree.setCurrent h).up, hashes := hs }

def moveTree (f : MerkleTree → MerkleTree) : Rebuild Unit :=
  modify fun w => { w with tree := f w.tree }

/-- One step of the rebuild at the cursor. -/
def step : Rebuild Unit := do
  let t := (← get).tree
  if t.isLeaf then
    let _ ← nextFlag
    placeNextHash
  else
    match t.leftChild with
    | none => if ← nextFlag then moveTree left else placeNextHash
    | some l =>
      if t.rightExists then
        match t.rightChild with
        | none => moveTree right
        | some r => moveTree fun t => (t.setCurrent (Merkle.parent l r)).up
      else moveTree fun t => (t.setCurrent (Merkle.parent l l)).up

/-- Step until the root is known. Each step records a hash in an unknown slot, uses a flag bit,
or descends one level, so `fuel` of twice the slots times the levels, plus the flag bits and
the levels, is never used up. -/
def loop : Nat → Rebuild Unit
  | 0 => return ()
  | fuel + 1 => do
    if (← get).tree.root.isSome then return ()
    step
    loop fuel

end Rebuild

def slotCount (t : MerkleTree) : Nat := t.levels.foldl (fun n level => n + level.size) 0

/-- Fill the tree from flag bits and hashes until the root is known; the tree is returned also
when the bits and hashes are not consistent, as far as it was filled, with the error. -/
def populate (t : MerkleTree) (flags : List Bool) (hashes : List Bytes) :
    MerkleTree × Option Error :=
  if hashes.length > t.total then
    (t, some (.malformedMerkleProof s!"{hashes.length} hashes for {t.total} transactions"))
  else if flags.length < hashes.length then
    (t, some (.malformedMerkleProof s!"{flags.length} flag bits for {hashes.length} hashes"))
  else
    let fuel := 2 * t.slotCount * (t.maxDepth + 1) + flags.length + t.maxDepth + 1
    match EStateM.run (Rebuild.loop fuel) ⟨t, flags, hashes⟩ with
    | .error e w => (w.tree, some e)
    | .ok _ w =>
      if !w.hashes.isEmpty then
        (w.tree, some (.malformedMerkleProof s!"{w.hashes.length} hashes not consumed"))
      else if w.flags.any id then
        (w.tree, some (.malformedMerkleProof "flag bits set after the root was reached"))
      else (w.tree, none)

end MerkleTree

end Bitcoin
