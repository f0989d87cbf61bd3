import Bitcoin.Proofs.Merkle.Rebuild
import Bitcoin.Merkle.Block

/-! # Streams of the standard builder are accepted

The standard builder walks the full tree depth first, giving each visited node a flag bit set when
a matched leaf lies below it and descending only below set bits; a leaf or a node whose bit is
clear gives its hash in the full tree. `populate` accepts that stream, also packed into bytes, and
rebuilds `Merkle.root` of the leaves, so a merkle block carrying it under that root is valid.
-/

namespace Bitcoin.Merkle

section FullTree

variable [Digests]

/-- The node `height` levels above the leaves at `index` in the full tree over `leaves`. -/
def fullNode (leaves : List Bytes) (height index : Nat) : Bytes :=
  (parentLevel^[height] leaves).getD index []

/-- Whether a matched leaf lies below the node `height` levels above the leaves at `index`. -/
def hasMatch (total : Nat) (matched : Nat → Bool) (height index : Nat) : Bool :=
  (List.range total).any fun j => j / 2 ^ height == index && matched j

/-- The flag bits and hashes the standard builder gives for the subtree of the node `height`
levels above the leaves at `index`, depth first. -/
def build (total : Nat) (leaves : List Bytes) (matched : Nat → Bool) :
    (height index : Nat) → List Bool × List Bytes
  | 0, index => ([matched index], [fullNode leaves 0 index])
  | height + 1, index =>
    if hasMatch total matched (height + 1) index then
      let left := build total leaves matched height (2 * index)
      let right :=
        if 2 * index + 1 < levelWidth total height then
          build total leaves matched height (2 * index + 1)
        else ([], [])
      (true :: left.1 ++ right.1, left.2 ++ right.2)
    else ([false], [fullNode leaves (height + 1) index])

def buildStream (leaves : List Bytes) (matched : Nat → Bool) : List Bool × List Bytes :=
  build leaves.length leaves matched (ceilLog2 leaves.length) 0

/-! ## The full tree -/

theorem length_iterate_parentLevel (leaves : List Bytes) (height : Nat) :
    (parentLevel^[height] leaves).length = levelWidth leaves.length height := by
  induction height with
  | zero => simp
  | succ height ih =>
      rw [Function.iterate_succ_apply', length_parentLevel, ih, levelWidth_succ]

theorem getD_parentLevel_of_lt :
    ∀ {xs : List Bytes} {index : Nat}, 2 * index + 1 < xs.length →
      (parentLevel xs).getD index [] = parent (xs.getD (2 * index) []) (xs.getD (2 * index + 1) [])
  | [], _, h | [_], _, h => by simp at h
  | _ :: _ :: _, 0, _ => rfl
  | _ :: _ :: rest, index + 1, h => by
      have := @getD_parentLevel_of_lt rest index (by simp at h; omega)
      simpa [parentLevel, Nat.mul_add] using this

theorem getD_parentLevel_of_eq :
    ∀ {xs : List Bytes} {index : Nat}, xs.length = 2 * index + 1 →
      (parentLevel xs).getD index [] = parent (xs.getD (2 * index) []) (xs.getD (2 * index) [])
  | [], _, h => by simp at h
  | [_], 0, _ => rfl
  | [_], _ + 1, h => by simp at h
  | _ :: _ :: _, 0, h => by simp at h
  | _ :: _ :: rest, index + 1, h => by
      have := @getD_parentLevel_of_eq rest index (by simp at h; omega)
      simpa [parentLevel, Nat.mul_add] using this

section FullNode

variable {leaves : List Bytes} {total height index : Nat}

theorem fullNode_succ_of_lt (hlen : leaves.length = total)
    (hw : 2 * index + 1 < levelWidth total height) :
    fullNode leaves (height + 1) index =
      parent (fullNode leaves height (2 * index)) (fullNode leaves height (2 * index + 1)) := by
  have hw' : 2 * index + 1 < (parentLevel^[height] leaves).length := by
    rwa [length_iterate_parentLevel, hlen]
  rw [fullNode, Function.iterate_succ_apply', getD_parentLevel_of_lt hw']
  rfl

theorem fullNode_succ_of_not_lt (hlen : leaves.length = total)
    (hi : index < levelWidth total (height + 1)) (hw : ¬2 * index + 1 < levelWidth total height) :
    fullNode leaves (height + 1) index =
      parent (fullNode leaves height (2 * index)) (fullNode leaves height (2 * index)) := by
  have hl := two_mul_lt_levelWidth hi
  have hodd : (parentLevel^[height] leaves).length = 2 * index + 1 := by
    rw [length_iterate_parentLevel, hlen]
    omega
  rw [fullNode, Function.iterate_succ_apply', getD_parentLevel_of_eq hodd]
  rfl

end FullNode

/-! ## Reading the builder's stream -/

section Build

variable {total : Nat} {leaves : List Bytes} {matched : Nat → Bool}

/-- The builder's stream for a node that has a slot reads back as that node of the full tree, and
reading it leaves whatever follows it. -/
theorem reads_build (maxDepth : Nat) (hlen : leaves.length = total) :
    ∀ (height index : Nat), index < levelWidth total height →
      ∀ (table : NodeTable) (flags : List Bool) (hashes : List Bytes), ∃ r,
        Reads total maxDepth height index table
          ((build total leaves matched height index).1 ++ flags)
          ((build total leaves matched height index).2 ++ hashes) r ∧
        r.hash = fullNode leaves height index ∧ r.flags = flags ∧ r.hashes = hashes := by
  intro height
  induction height with
  | zero => exact fun index _ table flags hashes => ⟨_, .leaf, rfl, rfl, rfl⟩
  | succ height ih =>
      intro index hi table flags hashes
      by_cases hm : hasMatch total matched (height + 1) index
      · by_cases hw : 2 * index + 1 < levelWidth total height
        · -- both children are read, the right one from what the left one leaves
          obtain ⟨l, hl, hlh, hlf, hlhs⟩ := ih (2 * index) (two_mul_lt_levelWidth hi) table
            ((build total leaves matched height (2 * index + 1)).1 ++ flags)
            ((build total leaves matched height (2 * index + 1)).2 ++ hashes)
          obtain ⟨r, hr, hrh, hrf, hrhs⟩ := ih (2 * index + 1) hw l.table flags hashes
          rw [← hlf, ← hlhs] at hr
          refine ⟨r.close (maxDepth - (height + 1)) index (parent l.hash r.hash), ?_, ?_, hrf, hrhs⟩
          · simp only [build, hm, hw, if_true, List.cons_append, List.append_assoc]
            exact .pair hw hl hr
          · show parent l.hash r.hash = _
            rw [hlh, hrh, fullNode_succ_of_lt hlen hw]
        · obtain ⟨l, hl, hlh, hlf, hlhs⟩ := ih (2 * index) (two_mul_lt_levelWidth hi) table
            flags hashes
          refine ⟨l.close (maxDepth - (height + 1)) index (parent l.hash l.hash), ?_, ?_, hlf, hlhs⟩
          · simp only [build, hm, hw, if_true, if_false, List.append_nil, List.cons_append]
            exact .single hw hl
          · show parent l.hash l.hash = _
            rw [hlh, fullNode_succ_of_not_lt hlen hi hw]
      · simp only [build, hm, Bool.false_eq_true, if_false, List.cons_append, List.nil_append]
        exact ⟨_, .pruned, rfl, rfl, rfl⟩

theorem length_parent (left right : Bytes) : (parent left right).length = 32 :=
  Digests.length_sha256 _

theorem length_of_mem_parentLevel : ∀ {xs : List Bytes} {x : Bytes}, x ∈ parentLevel xs →
    x.length = 32
  | [], _, h => by cases h
  | [_], _, h => by
      rw [parentLevel, List.mem_singleton] at h
      rw [h, length_parent]
  | _ :: _ :: _, _, h => by
      rcases List.mem_cons.1 h with h | h
      · rw [h, length_parent]
      · exact length_of_mem_parentLevel h

theorem length_fullNode (hleaves : ∀ x ∈ leaves, x.length = 32) {height index : Nat}
    (hi : index < levelWidth leaves.length height) :
    (fullNode leaves height index).length = 32 := by
  have hi' : index < (parentLevel^[height] leaves).length := by
    rwa [length_iterate_parentLevel]
  rw [fullNode, List.getD_eq_getElem _ _ hi']
  cases height with
  | zero => exact hleaves _ (List.getElem_mem hi')
  | succ height =>
      simp only [Function.iterate_succ_apply'] at hi' ⊢
      exact length_of_mem_parentLevel (List.getElem_mem hi')

theorem length_of_mem_build (hleaves : ∀ x ∈ leaves, x.length = 32) :
    ∀ (height index : Nat), index < levelWidth leaves.length height →
      ∀ x ∈ (build leaves.length leaves matched height index).2, x.length = 32 := by
  intro height
  induction height with
  | zero =>
      intro index hi x hx
      rw [build, List.mem_singleton] at hx
      rw [hx]
      exact length_fullNode hleaves hi
  | succ height ih =>
      intro index hi x hx
      by_cases hm : hasMatch leaves.length matched (height + 1) index
      · by_cases hw : 2 * index + 1 < levelWidth leaves.length height
        · simp only [build, hm, hw, if_true, List.mem_append] at hx
          rcases hx with hx | hx
          · exact ih _ (two_mul_lt_levelWidth hi) x hx
          · exact ih _ hw x hx
        · simp only [build, hm, hw, if_true, if_false, List.append_nil] at hx
          exact ih _ (two_mul_lt_levelWidth hi) x hx
      · simp only [build, hm, Bool.false_eq_true, if_false, List.mem_singleton] at hx
        rw [hx]
        exact length_fullNode hleaves hi

end Build

/-! ## The root -/

/-- The root of a nonempty list of leaves is the node `ceilLog2` of their number levels above
them: `root` stops pairing at the first level of one hash. -/
theorem root_eq_fullNode (leaves : List Bytes) (hne : leaves ≠ []) :
    root leaves = some (fullNode leaves (ceilLog2 leaves.length) 0) := by
  induction leaves using root.induct with
  | case1 xs h2 ih =>
      have hne' : parentLevel xs ≠ [] := by
        rw [← List.length_pos_iff, length_parentLevel]
        omega
      rw [root, dif_pos h2, ih hne', length_parentLevel, ceilLog2_of_two_le h2, fullNode, fullNode,
        Function.iterate_succ_apply]
  | case2 xs h2 =>
      have h1 : xs.length = 1 := by
        have := List.length_pos_iff.2 hne
        omega
      rw [root, dif_neg h2, h1]
      cases xs with
      | nil => contradiction
      | cons x rest => rfl

theorem traverse_buildStream (hne : leaves ≠ []) (matched : Nat → Bool) (pad : Nat) :
    ∃ r, traverse leaves.length ((buildStream leaves matched).1 ++ List.replicate pad false)
        (buildStream leaves matched).2 = some r ∧
      r.hash = fullNode leaves (ceilLog2 leaves.length) 0 ∧ r.hashes = [] ∧
      r.flags = List.replicate pad false := by
  obtain ⟨r, hr, hhash, hflags, hhashes⟩ := reads_build (ceilLog2 leaves.length) rfl
    (ceilLog2 leaves.length) 0 (zero_lt_levelWidth (List.length_pos_iff.2 hne)) NodeTable.empty
    (List.replicate pad false) []
  rw [List.append_nil] at hr
  exact ⟨r, read_eq_some_iff.2 hr, hhash, hhashes, hflags⟩

end FullTree

/-! ## Flag bytes -/

def bitsValue : List Bool → Nat
  | [] => 0
  | b :: rest => (if b then 1 else 0) + 2 * bitsValue rest

/-- Flag bits packed eight to a byte, least significant bit first; the last byte is padded with
0 bits. -/
def packBits : List Bool → Bytes
  | b0 :: b1 :: b2 :: b3 :: b4 :: b5 :: b6 :: b7 :: rest =>
    (bitsValue [b0, b1, b2, b3, b4, b5, b6, b7]).toUInt8 :: packBits rest
  | [] => []
  | bits => [(bitsValue bits).toUInt8]

theorem bitField_cons (b : UInt8) (bytes : Bytes) :
    bitField (b :: bytes) = bitField [b] ++ bitField bytes := by
  simp [bitField]

theorem bitField_byte : ∀ b0 b1 b2 b3 b4 b5 b6 b7 : Bool,
    bitField [(bitsValue [b0, b1, b2, b3, b4, b5, b6, b7]).toUInt8] =
      [b0, b1, b2, b3, b4, b5, b6, b7] := by
  decide

/-- Unpacking packed bits gives them back, followed by the 0 bits that pad the last byte. -/
theorem bitField_packBits :
    ∀ bits : List Bool, ∃ pad, bitField (packBits bits) = bits ++ List.replicate pad false
  | b0 :: b1 :: b2 :: b3 :: b4 :: b5 :: b6 :: b7 :: rest => by
      obtain ⟨pad, h⟩ := bitField_packBits rest
      refine ⟨pad, ?_⟩
      rw [packBits, bitField_cons, bitField_byte, h]
      rfl
  | [] => ⟨0, rfl⟩
  | [b0] => ⟨7, by revert b0; decide⟩
  | [b0, b1] => ⟨6, by revert b0 b1; decide⟩
  | [b0, b1, b2] => ⟨5, by revert b0 b1 b2; decide⟩
  | [b0, b1, b2, b3] => ⟨4, by revert b0 b1 b2 b3; decide⟩
  | [b0, b1, b2, b3, b4] => ⟨3, by revert b0 b1 b2 b3 b4; decide⟩
  | [b0, b1, b2, b3, b4, b5] => ⟨2, by revert b0 b1 b2 b3 b4 b5; decide⟩
  | [b0, b1, b2, b3, b4, b5, b6] => ⟨1, by revert b0 b1 b2 b3 b4 b5 b6; decide⟩

end Bitcoin.Merkle

namespace Bitcoin

open Merkle

/-- `populate` accepts the builder's stream, followed by any 0 bits, on the tree `create` gives,
and rebuilds the root of the full tree. -/
theorem MerkleTree.Created.populate_buildStream [Digests] {leaves : List Bytes} {t : MerkleTree}
    (hc : t.Created leaves.length) (matched : Nat → Bool) (pad : Nat) :
    (t.populate ((buildStream leaves matched).1 ++ List.replicate pad false)
        (buildStream leaves matched).2).2 = none ∧
      (t.populate ((buildStream leaves matched).1 ++ List.replicate pad false)
        (buildStream leaves matched).2).1.root =
        some (fullNode leaves (ceilLog2 leaves.length) 0) := by
  have hne : leaves ≠ [] := List.length_pos_iff.1 hc.one_le
  obtain ⟨r, hr, hhash, hnil, hflags⟩ := traverse_buildStream hne matched pad
  refine ⟨hc.populate_snd_eq_none_iff.2 ⟨r, hr, hnil, ?_⟩, ?_⟩
  · rw [hflags]
    exact fun b hb => List.eq_of_mem_replicate hb
  · rw [(hc.populate_of_traverse hr hnil).2, hhash]

theorem exists_shown : ∀ {hashes : List Bytes}, (∀ h ∈ hashes, h.length = 32) →
    ∃ shown : List (FixedBytes 32), shown.map (fun h => h.reverse.toList) = hashes
  | [], _ => ⟨[], rfl⟩
  | h :: rest, hl => by
      obtain ⟨shown, hs⟩ := exists_shown fun x hx => hl x (List.mem_cons_of_mem _ hx)
      refine ⟨⟨h.reverse, by rw [List.length_reverse, hl h List.mem_cons_self]⟩ :: shown, ?_⟩
      rw [List.map_cons, hs]
      simp [FixedBytes.reverse]

theorem MerkleBlock.isValid_of_populate [Digests] {mb : MerkleBlock} {t t' : MerkleTree} {root : Bytes}
    (hct : MerkleTree.create mb.total.toNat = .ok t)
    (hpop : t.populate (bitField mb.flags) (mb.hashes.map fun h => h.reverse.toList) = (t', none))
    (hroot : t'.root = some root) (hm : mb.header.merkleRoot.toList = root.reverse) :
    mb.isValid = .ok true := by
  simp only [MerkleBlock.isValid, hct, bind, Except.bind, hpop, hroot, hm, pure, Except.pure,
    beq_self_eq_true]

/-- The stream the standard builder gives for any leaves and any matched positions is accepted:
on the tree `create` gives, `populate` rebuilds `Merkle.root` of the leaves from it, with its bits
as they are or packed into bytes, and a merkle block that carries it in display order under a
header showing that root is valid. -/
theorem MerkleBlock.isValid_buildStream [Digests] {leaves : List (FixedBytes 32)} (h1 : 1 ≤ leaves.length)
    (h2 : leaves.length ≤ maxBlockTransactions) (matched : Nat → Bool) {flags : List Bool}
    {hashes : List Bytes}
    (hs : buildStream (leaves.map FixedBytes.toList) matched = (flags, hashes)) :
    ∃ root, Merkle.root (leaves.map FixedBytes.toList) = some root ∧
      (∃ t, MerkleTree.create leaves.length = .ok t ∧
        (t.populate flags hashes).2 = none ∧ (t.populate flags hashes).1.root = some root ∧
        (t.populate (bitField (packBits flags)) hashes).2 = none ∧
        (t.populate (bitField (packBits flags)) hashes).1.root = some root) ∧
      (∃ shown : List (FixedBytes 32), shown.map (fun h => h.reverse.toList) = hashes) ∧
      ∀ (header : BlockHeader) (shown : List (FixedBytes 32)),
        header.merkleRoot.toList = root.reverse → shown.map (fun h => h.reverse.toList) = hashes →
        MerkleBlock.isValid ⟨header, leaves.length.toUInt32, shown, packBits flags⟩ =
          .ok true := by
  have hlen : (leaves.map FixedBytes.toList).length = leaves.length := List.length_map _
  have hne : leaves.map FixedBytes.toList ≠ [] := by
    rw [← List.length_pos_iff, hlen]
    omega
  obtain ⟨t, hct⟩ := MerkleTree.create_eq_ok h1 h2
  have hc : t.Created (leaves.map FixedBytes.toList).length :=
    hlen ▸ MerkleTree.created_of_create hct
  obtain ⟨pad, hpack⟩ := bitField_packBits flags
  have hplain := hc.populate_buildStream matched 0
  have hpacked := hc.populate_buildStream matched pad
  simp only [hs, List.replicate_zero, List.append_nil] at hplain hpacked
  rw [← hpack] at hpacked
  refine ⟨_, root_eq_fullNode _ hne, ⟨t, hct, hplain.1, hplain.2, hpacked.1, hpacked.2⟩,
    exists_shown fun x hx => ?_, fun header shown hm hshown => ?_⟩
  · -- the stream's hashes are nodes of the full tree over 32-byte leaves
    have hleaves : ∀ x ∈ leaves.map FixedBytes.toList, x.length = 32 := by
      simp only [List.mem_map]
      rintro _ ⟨l, -, rfl⟩
      exact l.length_toList
    have hx' : x ∈ (buildStream (leaves.map FixedBytes.toList) matched).2 := by
      rw [hs]
      exact hx
    exact length_of_mem_build hleaves _ _ (zero_lt_levelWidth (by omega)) x hx'
  · have htot : leaves.length.toUInt32.toNat = leaves.length :=
      UInt32.toNat_ofNat_of_lt' (lt_of_le_of_lt h2 (by decide))
    refine MerkleBlock.isValid_of_populate (htot ▸ hct) ?_ hpacked.2 hm
    rw [hshown]
    exact Prod.ext rfl hpacked.1

/-- Two leaves with the second matched: the root's bit is set, the first leaf's clear. -/
theorem isValid_buildStream_two :
    1 ≤ [FixedBytes.zero 32, FixedBytes.zero 32].length ∧
    [FixedBytes.zero 32, FixedBytes.zero 32].length ≤ maxBlockTransactions ∧
    buildStream ([FixedBytes.zero 32, FixedBytes.zero 32].map FixedBytes.toList) (· == 1) =
      ([true, false, true], [(FixedBytes.zero 32).toList, (FixedBytes.zero 32).toList]) ∧
    ∃ root,
      Merkle.root ([FixedBytes.zero 32, FixedBytes.zero 32].map FixedBytes.toList) = some root ∧
      (∃ t, MerkleTree.create [FixedBytes.zero 32, FixedBytes.zero 32].length = .ok t ∧
        (t.populate [true, false, true]
          [(FixedBytes.zero 32).toList, (FixedBytes.zero 32).toList]).2 = none ∧
        (t.populate [true, false, true]
          [(FixedBytes.zero 32).toList, (FixedBytes.zero 32).toList]).1.root = some root ∧
        (t.populate (bitField (packBits [true, false, true]))
          [(FixedBytes.zero 32).toList, (FixedBytes.zero 32).toList]).2 = none ∧
        (t.populate (bitField (packBits [true, false, true]))
          [(FixedBytes.zero 32).toList, (FixedBytes.zero 32).toList]).1.root = some root) ∧
      (∃ shown : List (FixedBytes 32), shown.map (fun h => h.reverse.toList) =
        [(FixedBytes.zero 32).toList, (FixedBytes.zero 32).toList]) ∧
      ∀ (header : BlockHeader) (shown : List (FixedBytes 32)),
        header.merkleRoot.toList = root.reverse → shown.map (fun h => h.reverse.toList) =
          [(FixedBytes.zero 32).toList, (FixedBytes.zero 32).toList] →
        MerkleBlock.isValid ⟨header, [FixedBytes.zero 32, FixedBytes.zero 32].length.toUInt32,
          shown, packBits [true, false, true]⟩ = .ok true :=
  ⟨by decide, by decide, rfl, MerkleBlock.isValid_buildStream (by decide) (by decide) (· == 1) rfl⟩

end Bitcoin
