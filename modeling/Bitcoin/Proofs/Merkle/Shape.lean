import Bitcoin.Proofs.Merkle.Builder

/-! # The shape of a partial merkle tree

`create total` lays out `ceilLog2 total + 1` levels, where `ceilLog2 total` is the least height
`h` with `total ≤ 2^h`. Level `d` has `levelWidth total (maxDepth - d)` slots: `total` at the
leaves, one at the root, and each level half the one below it, rounded up. These are the lengths
of the levels `Merkle.root` computes from `total` leaves: its loop pairs the hashes exactly
`ceilLog2 total` times, each level before the last holding two or more hashes, and the root is the
one hash then left.
-/

namespace Bitcoin.Merkle

section Widths

variable {total k : Nat}

theorem levelWidth_ceilLog2 (h : 1 ≤ total) : levelWidth total (ceilLog2 total) = 1 := by
  have hpos : 0 < levelWidth total (ceilLog2 total) := zero_lt_levelWidth h
  have hle : ¬1 < levelWidth total (ceilLog2 total) := by
    rw [lt_levelWidth_iff, Nat.one_mul, Nat.not_lt]
    exact le_two_pow_ceilLog2 total
  omega

theorem two_le_levelWidth (hk : k < ceilLog2 total) : 2 ≤ levelWidth total k := by
  have hlt : 2 ^ k < total := by
    rw [← Nat.not_le, ← ceilLog2_le_iff]
    omega
  have : 1 < levelWidth total k := lt_levelWidth_iff.2 (by rwa [Nat.one_mul])
  omega

end Widths

/-! ## The levels of `root` -/

section Root

variable [Digests] {hs : List Bytes}

theorem root_of_two_le (h : 2 ≤ hs.length) : root hs = root (parentLevel hs) := by
  rw [root, dif_pos h]

theorem root_of_length_eq_one (h : hs.length = 1) : root hs = hs.head? := by
  rw [root, dif_neg (by omega)]

theorem root_iterate {k : Nat} (h : ∀ j < k, 2 ≤ (parentLevel^[j] hs).length) :
    root hs = root (parentLevel^[k] hs) := by
  induction k with
  | zero => rfl
  | succ k ih =>
      rw [ih (fun j hj => h j (by omega)), Function.iterate_succ_apply',
        root_of_two_le (h k (by omega))]

/-- From `n` leaves, `root` pairs the hashes `ceilLog2 n` times and returns the one hash left. -/
theorem root_eq_head_iterate (hne : hs ≠ []) :
    root hs = (parentLevel^[ceilLog2 hs.length] hs).head? := by
  have h1 : 1 ≤ hs.length := List.length_pos_iff.2 hne
  rw [root_iterate fun j hj => by rw [length_iterate_parentLevel]; exact two_le_levelWidth hj,
    root_of_length_eq_one (by rw [length_iterate_parentLevel, levelWidth_ceilLog2 h1])]

end Root

end Bitcoin.Merkle

namespace Bitcoin.MerkleTree

open Merkle

variable {t : MerkleTree}

theorem Shaped.size_levels (hs : t.Shaped) : t.levels.size = t.maxDepth + 1 := by
  have hlast := hs t.maxDepth
  have hpast := hs (t.maxDepth + 1)
  rw [if_pos le_rfl] at hlast
  rw [if_neg (by omega), Option.map_eq_none_iff, Array.getElem?_eq_none_iff] at hpast
  have hin : t.maxDepth < t.levels.size := by
    by_contra hout
    rw [Array.getElem?_eq_none (by omega), Option.map_none] at hlast
    cases hlast
  omega

theorem Shaped.size_level_succ (hs : t.Shaped) {d : Nat} (hd : d < t.maxDepth) :
    (t.levels[d]?).map Array.size = (t.levels[d + 1]?).map fun level => (level.size + 1) / 2 := by
  have hk : t.maxDepth - d = t.maxDepth - (d + 1) + 1 := by omega
  have hmap : (t.levels[d + 1]?).map (fun level => (level.size + 1) / 2) =
      ((t.levels[d + 1]?).map Array.size).map fun n => (n + 1) / 2 := by
    rw [Option.map_map]
    rfl
  rw [hmap, hs d, hs (d + 1), if_pos hd.le, if_pos (Nat.succ_le_of_lt hd), Option.map_some, hk,
    levelWidth_succ]

/-- For a total from one to the block limit, `create` succeeds with `ceilLog2 total` as the
depth of the leaves, the least height whose power of two covers `total`. Its `maxDepth + 1` levels
have `total` slots at the leaves and one at the root, and each level half the slots of the one
below it, rounded up. They are the levels `Merkle.root` computes from `total` leaves: pairing goes
on at every level before depth zero, the level `k` rounds up has as many hashes as the tree's
level `maxDepth - k` has slots, and the root is the one hash left after `maxDepth` rounds. -/
theorem create_level_sizes [Digests] {total : Nat} (h1 : 1 ≤ total) (h2 : total ≤ maxBlockTransactions) :
    ∃ t, create total = .ok t ∧
      t.maxDepth = ceilLog2 total ∧ (∀ h, ceilLog2 total ≤ h ↔ total ≤ 2 ^ h) ∧
      t.levels.size = t.maxDepth + 1 ∧
      (t.levels[t.maxDepth]?).map Array.size = some total ∧
      (t.levels[0]?).map Array.size = some 1 ∧
      (∀ d < t.maxDepth, (t.levels[d]?).map Array.size =
        (t.levels[d + 1]?).map fun level => (level.size + 1) / 2) ∧
      ∀ leaves : List Bytes, leaves.length = total →
        (∀ k < t.maxDepth, 2 ≤ (parentLevel^[k] leaves).length) ∧
        (∀ k ≤ t.maxDepth, (t.levels[t.maxDepth - k]?).map Array.size =
          some (parentLevel^[k] leaves).length) ∧
        Merkle.root leaves = (parentLevel^[t.maxDepth] leaves).head? := by
  obtain ⟨t, hct⟩ := create_eq_ok h1 h2
  have hc := created_of_create hct
  have hs := hc.atRoot.shaped
  have hwidth : ∀ d ≤ t.maxDepth,
      (t.levels[d]?).map Array.size = some (levelWidth total (t.maxDepth - d)) := by
    intro d hd
    rw [hs d, if_pos hd, hc.total_eq]
  refine ⟨t, hct, hc.maxDepth_eq, fun _ => ceilLog2_le_iff, hs.size_levels, ?_, ?_,
    fun d hd => hs.size_level_succ hd, fun leaves hlen => ⟨?_, ?_, ?_⟩⟩
  · rw [hwidth _ le_rfl, Nat.sub_self, levelWidth_zero]
  · rw [hwidth 0 (Nat.zero_le _), Nat.sub_zero, hc.maxDepth_eq, levelWidth_ceilLog2 h1]
  · intro k hk
    rw [length_iterate_parentLevel, hlen]
    exact two_le_levelWidth (hc.maxDepth_eq ▸ hk)
  · intro k hk
    rw [hwidth _ (Nat.sub_le _ _), Nat.sub_sub_self hk, length_iterate_parentLevel, hlen]
  · have hne : leaves ≠ [] := by
      rintro rfl
      rw [List.length_nil] at hlen
      omega
    rw [hc.maxDepth_eq, ← hlen]
    exact root_eq_head_iterate hne

/-- Twenty-seven leaves: six levels. -/
theorem create_level_sizes_twenty_seven :
    1 ≤ 27 ∧ 27 ≤ maxBlockTransactions ∧
    ∃ t, create 27 = .ok t ∧
      t.maxDepth = ceilLog2 27 ∧ (∀ h, ceilLog2 27 ≤ h ↔ 27 ≤ 2 ^ h) ∧
      t.levels.size = t.maxDepth + 1 ∧
      (t.levels[t.maxDepth]?).map Array.size = some 27 ∧
      (t.levels[0]?).map Array.size = some 1 ∧
      (∀ d < t.maxDepth, (t.levels[d]?).map Array.size =
        (t.levels[d + 1]?).map fun level => (level.size + 1) / 2) ∧
      ∀ leaves : List Bytes, leaves.length = 27 →
        (∀ k < t.maxDepth, 2 ≤ (parentLevel^[k] leaves).length) ∧
        (∀ k ≤ t.maxDepth, (t.levels[t.maxDepth - k]?).map Array.size =
          some (parentLevel^[k] leaves).length) ∧
        Merkle.root leaves = (parentLevel^[t.maxDepth] leaves).head? :=
  ⟨by decide, by decide, create_level_sizes (by decide) (by decide)⟩

end Bitcoin.MerkleTree
