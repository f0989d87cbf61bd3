import Bitcoin.Merkle.Tree
import Bitcoin.Proofs.Bytes

/-! # Reading a partial merkle tree depth first

A node takes the next flag bit; a leaf, or a node whose bit is 0, then takes the next hash, and
any other node reads its left subtree, its right one when the level below has a slot for it, and
becomes their parent. `read` is that reading, with nodes named by height and index. It records
each visited node's hash in a table, changes the table only inside the subtree it reads, and uses
at least one hash, no more hashes than flag bits or leaves, and at most `height + 1` bits per hash.
-/

namespace Bitcoin.Merkle

/-- The number of nodes `height` levels above the leaves of a tree over `total` leaves:
`⌈total / 2^height⌉`. -/
def levelWidth (total height : Nat) : Nat := (total + 2 ^ height - 1) / 2 ^ height

/-- The number of leaves below the node at a height and an index. -/
def leavesUnder (total height index : Nat) : Nat :=
  min total ((index + 1) * 2 ^ height) - index * 2 ^ height

/-- Hashes of nodes by depth and index, as a rebuild records them. -/
abbrev NodeTable := Nat → Nat → Option Bytes

def NodeTable.empty : NodeTable := fun _ _ => none

def NodeTable.record (table : NodeTable) (depth index : Nat) (hash : Bytes) : NodeTable :=
  fun d i => if d = depth ∧ i = index then some hash else table d i

/-- What reading a subtree gives: its hash, the table with the hashes of the nodes it visited,
and the flag bits and hashes left. -/
structure Reading where
  /-- The hash of the subtree's root. -/
  hash : Bytes
  /-- The table, with every visited node recorded. -/
  table : NodeTable
  /-- The flag bits not used. -/
  flags : List Bool
  /-- The hashes not used. -/
  hashes : List Bytes

def takeHash (depth index : Nat) (table : NodeTable) (flags : List Bool) :
    List Bytes → Option Reading
  | [] => none
  | hash :: hashes => some ⟨hash, table.record depth index hash, flags, hashes⟩

/-- The node above a read subtree, with the hash computed from its children. -/
def Reading.close (r : Reading) (depth index : Nat) (hash : Bytes) : Reading :=
  ⟨hash, r.table.record depth index hash, r.flags, r.hashes⟩

/-- Read the node `height` levels above the leaves at `index`, in a tree over `total` leaves whose
leaves lie at depth `maxDepth`. -/
def read [Digests] (total maxDepth : Nat) :
    (height index : Nat) → NodeTable → List Bool → List Bytes → Option Reading
  | _, _, _, [], _ => none
  | 0, index, table, _ :: flags, hashes => takeHash maxDepth index table flags hashes
  | height + 1, index, table, false :: flags, hashes =>
    takeHash (maxDepth - (height + 1)) index table flags hashes
  | height + 1, index, table, true :: flags, hashes => do
    let l ← read total maxDepth height (2 * index) table flags hashes
    if 2 * index + 1 < levelWidth total height then
      let r ← read total maxDepth height (2 * index + 1) l.table l.flags l.hashes
      pure (r.close (maxDepth - (height + 1)) index (parent l.hash r.hash))
    else pure (l.close (maxDepth - (height + 1)) index (parent l.hash l.hash))

def traverse [Digests] (total : Nat) (flags : List Bool) (hashes : List Bytes) : Option Reading :=
  read total (ceilLog2 total) (ceilLog2 total) 0 NodeTable.empty flags hashes

/-- The readings of `read`, one constructor for each kind of node (`read_eq_some_iff`). -/
inductive Reads [Digests] (total maxDepth : Nat) :
    Nat → Nat → NodeTable → List Bool → List Bytes → Reading → Prop
  /-- A leaf takes a flag bit and its hash. -/
  | leaf {index table bit flags hash hashes} :
      Reads total maxDepth 0 index table (bit :: flags) (hash :: hashes)
        ⟨hash, table.record maxDepth index hash, flags, hashes⟩
  /-- A node whose bit is 0 takes its hash. -/
  | pruned {height index table flags hash hashes} :
      Reads total maxDepth (height + 1) index table (false :: flags) (hash :: hashes)
        ⟨hash, table.record (maxDepth - (height + 1)) index hash, flags, hashes⟩
  /-- A node whose bit is 1 and whose level below has a slot for a right child reads both
  children. -/
  | pair {height index table flags hashes left right}
      (hw : 2 * index + 1 < levelWidth total height)
      (hl : Reads total maxDepth height (2 * index) table flags hashes left)
      (hr : Reads total maxDepth height (2 * index + 1) left.table left.flags left.hashes right) :
      Reads total maxDepth (height + 1) index table (true :: flags) hashes
        (right.close (maxDepth - (height + 1)) index (parent left.hash right.hash))
  /-- A node whose bit is 1 and that has no right child reads its left child only. -/
  | single {height index table flags hashes left}
      (hw : ¬2 * index + 1 < levelWidth total height)
      (hl : Reads total maxDepth height (2 * index) table flags hashes left) :
      Reads total maxDepth (height + 1) index table (true :: flags) hashes
        (left.close (maxDepth - (height + 1)) index (parent left.hash left.hash))

/-- The node at depth `d` and index `j` lies in the subtree of the node `height` levels above the
leaves at `index`. -/
def Below (maxDepth height index d j : Nat) : Prop :=
  maxDepth - height ≤ d ∧ d ≤ maxDepth ∧ j / 2 ^ (d - (maxDepth - height)) = index

/-! ## Level widths and leaf counts -/

section Widths

variable {total height index : Nat}

theorem lt_levelWidth_iff : index < levelWidth total height ↔ index * 2 ^ height < total := by
  have hp : 0 < 2 ^ height := Nat.two_pow_pos height
  rw [levelWidth, Nat.lt_iff_add_one_le, Nat.le_div_iff_mul_le hp, Nat.succ_mul]
  omega

@[simp] theorem levelWidth_zero (total : Nat) : levelWidth total 0 = total := by
  simp [levelWidth]

theorem two_mul_lt_levelWidth (h : index < levelWidth total (height + 1)) :
    2 * index < levelWidth total height := by
  rw [lt_levelWidth_iff] at h ⊢
  rw [Nat.pow_succ] at h
  calc 2 * index * 2 ^ height = index * (2 ^ height * 2) := by ring
    _ < total := h

theorem one_le_leavesUnder (h : index < levelWidth total height) :
    1 ≤ leavesUnder total height index := by
  have hp : 0 < 2 ^ height := Nat.two_pow_pos height
  rw [lt_levelWidth_iff] at h
  rw [leavesUnder, Nat.succ_mul]
  omega

theorem leavesUnder_succ (total height index : Nat) :
    leavesUnder total (height + 1) index =
      leavesUnder total height (2 * index) + leavesUnder total height (2 * index + 1) := by
  have e1 : (index + 1) * 2 ^ (height + 1) = 2 * (index * 2 ^ height) + 2 * 2 ^ height := by ring
  have e2 : index * 2 ^ (height + 1) = 2 * (index * 2 ^ height) := by ring
  have e3 : (2 * index + 1) * 2 ^ height = 2 * (index * 2 ^ height) + 2 ^ height := by ring
  have e4 : (2 * index + 1 + 1) * 2 ^ height = 2 * (index * 2 ^ height) + 2 * 2 ^ height := by ring
  have e5 : 2 * index * 2 ^ height = 2 * (index * 2 ^ height) := by ring
  simp only [leavesUnder, e1, e2, e3, e4, e5]
  omega

theorem leavesUnder_eq_zero (h : ¬index < levelWidth total height) :
    leavesUnder total height index = 0 := by
  rw [lt_levelWidth_iff] at h
  rw [leavesUnder]
  omega

theorem ceilLog2_le_iff {n h : Nat} : ceilLog2 n ≤ h ↔ n ≤ 2 ^ h := by
  unfold ceilLog2
  split_ifs with hn
  · have : 1 ≤ 2 ^ h := Nat.one_le_two_pow
    constructor <;> intro <;> omega
  · rw [Nat.add_one_le_iff, Nat.log2_lt (by omega)]
    omega

theorem le_two_pow_ceilLog2 (total : Nat) : total ≤ 2 ^ ceilLog2 total :=
  ceilLog2_le_iff.1 le_rfl

theorem zero_lt_levelWidth (h : 0 < total) : 0 < levelWidth total height := by
  simpa [lt_levelWidth_iff] using h

theorem leavesUnder_root (h : total ≤ 2 ^ height) : leavesUnder total height 0 = total := by
  simp [leavesUnder, h]

theorem levelWidth_succ (total height : Nat) :
    levelWidth total (height + 1) = (levelWidth total height + 1) / 2 := by
  have hp : 0 < 2 ^ height := Nat.two_pow_pos height
  have e : total + 2 ^ (height + 1) - 1 = (total + 2 ^ height - 1) + 2 ^ height := by
    rw [Nat.pow_succ]
    omega
  rw [levelWidth, levelWidth, e, Nat.pow_succ, ← Nat.div_div_eq_div_mul, Nat.add_div_right _ hp]

theorem ceilLog2_of_two_le {n : Nat} (h : 2 ≤ n) : ceilLog2 n = ceilLog2 ((n + 1) / 2) + 1 := by
  unfold ceilLog2
  rw [if_neg (by omega)]
  split_ifs with hm
  · obtain rfl : n = 2 := by omega
    rfl
  · rw [Nat.log2_def (n - 1), if_pos (by omega), show (n - 1) / 2 = (n + 1) / 2 - 1 by omega]

end Widths

/-! ## What a reading does -/

section Reading

variable [Digests] {total maxDepth height index : Nat} {table : NodeTable} {flags : List Bool}
  {hashes : List Bytes} {r : Reading}

omit [Digests] in
theorem takeHash_eq_some {depth : Nat} :
    takeHash depth index table flags hashes = some r ↔
      ∃ hash rest, hashes = hash :: rest ∧
        r = ⟨hash, table.record depth index hash, flags, rest⟩ := by
  cases hashes with
  | nil => simp [takeHash]
  | cons hash rest => simp [takeHash, eq_comm]

theorem read_true_eq_some_of_lt (hw : 2 * index + 1 < levelWidth total height) :
    read total maxDepth (height + 1) index table (true :: flags) hashes = some r ↔
      ∃ left right, read total maxDepth height (2 * index) table flags hashes = some left ∧
        read total maxDepth height (2 * index + 1) left.table left.flags left.hashes = some right ∧
        r = right.close (maxDepth - (height + 1)) index (parent left.hash right.hash) := by
  simp only [read, hw, if_true, Option.bind_eq_bind, Option.bind_eq_some_iff, Option.pure_def,
    Option.some.injEq]
  constructor
  · rintro ⟨left, hl, right, hr, rfl⟩
    exact ⟨left, right, hl, hr, rfl⟩
  · rintro ⟨left, right, hl, hr, rfl⟩
    exact ⟨left, hl, right, hr, rfl⟩

theorem read_true_eq_some_of_not_lt (hw : ¬2 * index + 1 < levelWidth total height) :
    read total maxDepth (height + 1) index table (true :: flags) hashes = some r ↔
      ∃ left, read total maxDepth height (2 * index) table flags hashes = some left ∧
        r = left.close (maxDepth - (height + 1)) index (parent left.hash left.hash) := by
  simp only [read, hw, if_false, Option.bind_eq_bind, Option.bind_eq_some_iff, Option.pure_def,
    Option.some.injEq]
  constructor
  · rintro ⟨left, hl, rfl⟩
    exact ⟨left, hl, rfl⟩
  · rintro ⟨left, hl, rfl⟩
    exact ⟨left, hl, rfl⟩

theorem read_right_eq_none {left : Reading} (hw : 2 * index + 1 < levelWidth total height)
    (hl : read total maxDepth height (2 * index) table flags hashes = some left)
    (h : read total maxDepth (height + 1) index table (true :: flags) hashes = none) :
    read total maxDepth height (2 * index + 1) left.table left.flags left.hashes = none := by
  cases hr : read total maxDepth height (2 * index + 1) left.table left.flags left.hashes with
  | none => rfl
  | some right =>
      rw [(read_true_eq_some_of_lt hw).2 ⟨left, right, hl, hr, rfl⟩] at h
      cases h

theorem read_left_eq_none (hw : ¬2 * index + 1 < levelWidth total height)
    (h : read total maxDepth (height + 1) index table (true :: flags) hashes = none) :
    read total maxDepth height (2 * index) table flags hashes = none := by
  cases hl : read total maxDepth height (2 * index) table flags hashes with
  | none => rfl
  | some left =>
      rw [(read_true_eq_some_of_not_lt hw).2 ⟨left, hl, rfl⟩] at h
      cases h

theorem read_eq_some_iff :
    read total maxDepth height index table flags hashes = some r ↔
      Reads total maxDepth height index table flags hashes r := by
  induction height, index, table, flags, hashes using read.induct generalizing r with
  | case1 =>
      simp only [read, reduceCtorEq, false_iff]
      intro h
      cases h
  | case2 index table bit flags hashes =>
      rw [read, takeHash_eq_some]
      constructor
      · rintro ⟨hash, rest, rfl, rfl⟩
        exact .leaf
      · rintro ⟨⟩
        exact ⟨_, _, rfl, rfl⟩
  | case3 height index table flags hashes =>
      rw [read, takeHash_eq_some]
      constructor
      · rintro ⟨hash, rest, rfl, rfl⟩
        exact .pruned
      · rintro ⟨⟩
        exact ⟨_, _, rfl, rfl⟩
  | case4 height index table flags hashes ihl ihr =>
      by_cases hw : 2 * index + 1 < levelWidth total height
      · rw [read_true_eq_some_of_lt hw]
        constructor
        · rintro ⟨left, right, hl, hr, rfl⟩
          exact .pair hw (ihl.1 hl) ((ihr left).1 hr)
        · rintro (_ | _ | ⟨-, hl, hr⟩ | ⟨hw', -⟩)
          · exact ⟨_, _, ihl.2 hl, (ihr _).2 hr, rfl⟩
          · exact absurd hw hw'
      · rw [read_true_eq_some_of_not_lt hw]
        constructor
        · rintro ⟨left, hl, rfl⟩
          exact .single hw (ihl.1 hl)
        · rintro (_ | _ | ⟨hw', -, -⟩ | ⟨-, hl⟩)
          · exact absurd hw' hw
          · exact ⟨_, ihl.2 hl, rfl⟩

theorem Reads.table_self (h : Reads total maxDepth height index table flags hashes r) :
    r.table (maxDepth - height) index = some r.hash := by
  cases h <;> simp [Reading.close, NodeTable.record]

theorem Reads.hashes_used (h : Reads total maxDepth height index table flags hashes r) :
    r.hashes.length < hashes.length ∧
      hashes.length - r.hashes.length ≤ flags.length - r.flags.length := by
  induction h with
  | leaf => simp
  | pruned => simp
  | pair _ _ _ ihl ihr =>
      simp only [Reading.close, List.length_cons] at ihl ihr ⊢
      omega
  | single _ _ ihl =>
      simp only [Reading.close, List.length_cons] at ihl ⊢
      omega

theorem Reads.flags_length_lt (h : Reads total maxDepth height index table flags hashes r) :
    r.flags.length < flags.length := by
  have := h.hashes_used
  omega

/-- A reading of a subtree of height `height` uses at most `height + 1` flag bits per hash: every
visited node is on the path from the root of the subtree to a leaf or a pruned node, each of
which takes one hash. -/
theorem Reads.flags_used_le (h : Reads total maxDepth height index table flags hashes r) :
    flags.length - r.flags.length ≤ (height + 1) * (hashes.length - r.hashes.length) := by
  induction h with
  | leaf => simp
  | @pruned height => simp
  | @pair height index table flags hashes left right _ hl hr ihl ihr =>
      have ul := hl.hashes_used
      have ur := hr.hashes_used
      have split : (height + 1 + 1) * (hashes.length - right.hashes.length) =
          (height + 1) * (hashes.length - left.hashes.length) +
            (height + 1) * (left.hashes.length - right.hashes.length) +
            (hashes.length - right.hashes.length) := by
        rw [show hashes.length - right.hashes.length =
          (hashes.length - left.hashes.length) + (left.hashes.length - right.hashes.length) by
            omega]
        ring
      simp only [Reading.close, List.length_cons, split]
      omega
  | @single height index table flags hashes left _ hl ihl =>
      have ul := hl.hashes_used
      have split : (height + 1 + 1) * (hashes.length - left.hashes.length) =
          (height + 1) * (hashes.length - left.hashes.length) +
            (hashes.length - left.hashes.length) := by ring
      simp only [Reading.close, List.length_cons, split]
      omega

theorem Reads.hashes_used_le_leavesUnder
    (h : Reads total maxDepth height index table flags hashes r)
    (hi : index < levelWidth total height) :
    hashes.length - r.hashes.length ≤ leavesUnder total height index := by
  induction h with
  | leaf => simpa using one_le_leavesUnder hi
  | pruned => simpa using one_le_leavesUnder hi
  | @pair height index table flags hashes left right hw hl hr ihl ihr =>
      have ul := hl.hashes_used
      have ur := hr.hashes_used
      have hl' := ihl (two_mul_lt_levelWidth hi)
      have hr' := ihr hw
      simp only [Reading.close, leavesUnder_succ] at hl' hr' ⊢
      omega
  | @single height index table flags hashes left hw hl ihl =>
      have hl' := ihl (two_mul_lt_levelWidth hi)
      simp only [Reading.close, leavesUnder_succ, leavesUnder_eq_zero hw]
      omega

theorem Reads.hashes_used_le_total
    (h : Reads total (ceilLog2 total) (ceilLog2 total) 0 table flags hashes r) (htot : 0 < total) :
    hashes.length - r.hashes.length ≤ total := by
  have := h.hashes_used_le_leavesUnder (zero_lt_levelWidth htot)
  rwa [leavesUnder_root (le_two_pow_ceilLog2 total)] at this

theorem hashes_length_le_of_traverse (htot : 0 < total)
    (hr : traverse total flags hashes = some r) (hnil : r.hashes = []) :
    hashes.length ≤ total ∧ hashes.length ≤ flags.length := by
  have hr' := read_eq_some_iff.1 hr
  have hleaves := hr'.hashes_used_le_total htot
  have hflags := hr'.hashes_used
  rw [hnil, List.length_nil, Nat.sub_zero] at hleaves hflags
  omega

end Reading

/-! ## Subtrees and what a reading leaves alone -/

section Below

variable {maxDepth height index d j : Nat}

theorem below_self : Below maxDepth height index (maxDepth - height) index :=
  ⟨le_rfl, Nat.sub_le _ _, by simp⟩

theorem Below.parent (hh : height + 1 ≤ maxDepth) (hb : Below maxDepth height index d j) :
    Below maxDepth (height + 1) (index / 2) d j := by
  obtain ⟨hlo, hhi, hdiv⟩ := hb
  refine ⟨by omega, hhi, ?_⟩
  have e : d - (maxDepth - (height + 1)) = d - (maxDepth - height) + 1 := by omega
  rw [e, Nat.pow_succ, ← Nat.div_div_eq_div_mul, hdiv]

theorem Below.index_eq {index' : Nat} (hb : Below maxDepth height index d j)
    (hb' : Below maxDepth height index' d j) : index = index' :=
  hb.2.2.symm.trans hb'.2.2

theorem not_below_root (hh : height < maxDepth) : ¬Below maxDepth height index 0 j := by
  rintro ⟨hlo, -, -⟩
  omega

theorem below_left_child (hh : height + 1 ≤ maxDepth) (hb : Below maxDepth height (2 * index) d j) :
    Below maxDepth (height + 1) index d j := by
  simpa using hb.parent hh

theorem below_right_child (hh : height + 1 ≤ maxDepth)
    (hb : Below maxDepth height (2 * index + 1) d j) : Below maxDepth (height + 1) index d j := by
  simpa [Nat.mul_add_div] using hb.parent hh

end Below

/-- A reading changes the table only inside the subtree it reads. -/
theorem Reads.table_of_not_below [Digests] {total maxDepth height index : Nat} {table : NodeTable}
    {flags : List Bool} {hashes : List Bytes} {r : Reading} {d j : Nat}
    (h : Reads total maxDepth height index table flags hashes r) (hh : height ≤ maxDepth)
    (hb : ¬Below maxDepth height index d j) : r.table d j = table d j := by
  induction h with
  | leaf | pruned =>
      simp only [NodeTable.record]
      rw [if_neg]
      rintro ⟨rfl, rfl⟩
      exact hb below_self
  | pair _ _ _ ihl ihr =>
      simp only [Reading.close, NodeTable.record]
      rw [if_neg, ihr (by omega) (fun h => hb (below_right_child hh h)),
        ihl (by omega) (fun h => hb (below_left_child hh h))]
      rintro ⟨rfl, rfl⟩
      exact hb below_self
  | single _ _ ihl =>
      simp only [Reading.close, NodeTable.record]
      rw [if_neg, ihl (by omega) (fun h => hb (below_left_child hh h))]
      rintro ⟨rfl, rfl⟩
      exact hb below_self

end Bitcoin.Merkle
