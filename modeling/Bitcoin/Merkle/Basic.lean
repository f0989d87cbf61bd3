import Bitcoin.Hash
/-! # Merkle roots

A merkle tree names a list of hashes by one hash: each parent is the HASH256 of its two children
side by side, a level with an odd count pairs its last hash with itself, and the root is what is
left when one hash remains. Hashes here are in wire order. Flag bytes unpack to bits, least
significant bit of each byte first.
-/

namespace Bitcoin.Merkle

variable [Digests]

def parent (left right : Bytes) : Bytes :=
  Hash.hash256 (left ++ right)

/-- The level above: each pair's parent, an odd last hash paired with itself. -/
def parentLevel : List Bytes → List Bytes
  | [] => []
  | [last] => [parent last last]
  | left :: right :: rest => parent left right :: parentLevel rest

theorem length_parentLevel : ∀ (hs : List Bytes), (parentLevel hs).length = (hs.length + 1) / 2
  | [] => by simp [parentLevel]
  | [_] => by simp [parentLevel]
  | _ :: _ :: rest => by
    simp only [parentLevel, List.length_cons, length_parentLevel rest]
    omega

/-- The root of a list of leaves, absent for no leaves. -/
def root (hs : List Bytes) : Option Bytes :=
  if _h : 2 ≤ hs.length then root (parentLevel hs) else hs.head?
termination_by hs.length
decreasing_by rw [length_parentLevel]; omega

/-- Flag bits, least significant bit of each byte first. -/
def bitField (bytes : Bytes) : List Bool :=
  bytes.flatMap fun b => (List.range 8).map fun i => (b >>> i.toUInt8) &&& 1 == 1

end Bitcoin.Merkle
