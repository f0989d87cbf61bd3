import Bitcoin.Proofs.Merkle.Traversal

/-! # The rebuild reads the tree depth first

`populate` steps a cursor through the tree instead of recursing. Entered at a node whose subtree
is unknown, its steps up to the return to the parent read the subtree as `read` does, recording
the same hashes in the same slots (`reaches_of_reads`), and fail where `read` fails
(`fails_of_read_eq_none`), within the fuel `populate` gives. So on a tree from `create`, `populate`
succeeds exactly when the reading from the root uses every hash and leaves no set flag bit
(`populate_iff_traverse`).
-/

namespace Bitcoin.MerkleTree

open Merkle

def hashAt (t : MerkleTree) : NodeTable := fun d i => (t.slot? d i).join

/-- The levels have the sizes `create` gives them: level `d` has a slot for each node
`maxDepth - d` levels above the leaves. -/
def Shaped (t : MerkleTree) : Prop :=
  ∀ d, (t.levels[d]?).map Array.size =
    if d ≤ t.maxDepth then some (levelWidth t.total (t.maxDepth - d)) else none

variable {t : MerkleTree} {v : Bytes}

theorem Shaped.level (hs : t.Shaped) {d : Nat} (hd : d ≤ t.maxDepth) :
    ∃ level, t.levels[d]? = some level ∧ level.size = levelWidth t.total (t.maxDepth - d) := by
  have := hs d
  rw [if_pos hd] at this
  cases hlev : t.levels[d]? with
  | none => simp [hlev] at this
  | some level => simpa [hlev] using this

theorem Shaped.setCurrent (hs : t.Shaped) : (t.setCurrent v).Shaped := by
  have hsize : (Array.size ∘ fun level : Array (Option Bytes) =>
      level.setIfInBounds t.index (some v)) = Array.size :=
    funext fun _ => Array.size_setIfInBounds
  intro d
  by_cases h : t.depth = d
  · simp only [MerkleTree.setCurrent, Array.getElem?_modify, h, if_true, Option.map_map, hsize]
    exact hs d
  · simp only [MerkleTree.setCurrent, Array.getElem?_modify, h, if_false]
    exact hs d

theorem hashAt_setCurrent (hs : t.Shaped) (hd : t.depth ≤ t.maxDepth)
    (hi : t.index < levelWidth t.total (t.maxDepth - t.depth)) :
    (t.setCurrent v).hashAt = t.hashAt.record t.depth t.index v := by
  obtain ⟨level, hlev, hsize⟩ := hs.level hd
  funext d j
  simp only [hashAt, slot?, MerkleTree.setCurrent, NodeTable.record, Array.getElem?_modify]
  by_cases hdj : d = t.depth
  · subst hdj
    simp only [if_true, hlev, Option.map_some, Option.bind_some, Array.getElem?_setIfInBounds]
    by_cases hj : j = t.index
    · subst hj
      simp [hsize, hi]
    · simp [Ne.symm hj, hj]
  · simp [Ne.symm hdj, hdj]

theorem rightExists_eq (hs : t.Shaped) (hd : t.depth + 1 ≤ t.maxDepth) :
    t.rightExists =
      decide (t.index * 2 + 1 < levelWidth t.total (t.maxDepth - (t.depth + 1))) := by
  obtain ⟨level, hlev, hsize⟩ := hs.level hd
  simp [rightExists, hlev, hsize]

/-! ## One step of the rebuild -/

namespace Rebuild

variable [Digests] {flags : List Bool} {hashes : List Bytes} {bit : Bool} {hash l r : Bytes}

theorem step_leaf (hleaf : t.isLeaf = true) :
    step ⟨t, bit :: flags, hash :: hashes⟩ = .ok () ⟨(t.setCurrent hash).up, flags, hashes⟩ := by
  simp only [step, bind, EStateM.bind, get, getThe, MonadStateOf.get, EStateM.get, hleaf, if_true]
  rfl

theorem step_descend (hleaf : t.isLeaf = false) (hl : t.leftChild = none) :
    step ⟨t, true :: flags, hashes⟩ = .ok () ⟨t.left, flags, hashes⟩ := by
  simp only [step, bind, EStateM.bind, get, getThe, MonadStateOf.get, EStateM.get, hleaf, hl]
  rfl

theorem step_pruned (hleaf : t.isLeaf = false) (hl : t.leftChild = none) :
    step ⟨t, false :: flags, hash :: hashes⟩ = .ok () ⟨(t.setCurrent hash).up, flags, hashes⟩ := by
  simp only [step, bind, EStateM.bind, get, getThe, MonadStateOf.get, EStateM.get, hleaf, hl]
  rfl

theorem step_right (hleaf : t.isLeaf = false) (hl : t.leftChild = some l)
    (hre : t.rightExists = true) (hr : t.rightChild = none) :
    step ⟨t, flags, hashes⟩ = .ok () ⟨t.right, flags, hashes⟩ := by
  simp only [step, bind, EStateM.bind, get, getThe, MonadStateOf.get, EStateM.get, hleaf, hl, hre,
    hr]
  rfl

theorem step_pair (hleaf : t.isLeaf = false) (hl : t.leftChild = some l)
    (hre : t.rightExists = true) (hr : t.rightChild = some r) :
    step ⟨t, flags, hashes⟩ = .ok () ⟨(t.setCurrent (parent l r)).up, flags, hashes⟩ := by
  simp only [step, bind, EStateM.bind, get, getThe, MonadStateOf.get, EStateM.get, hleaf, hl, hre,
    hr]
  rfl

theorem step_single (hleaf : t.isLeaf = false) (hl : t.leftChild = some l)
    (hre : t.rightExists = false) :
    step ⟨t, flags, hashes⟩ = .ok () ⟨(t.setCurrent (parent l l)).up, flags, hashes⟩ := by
  simp only [step, bind, EStateM.bind, get, getThe, MonadStateOf.get, EStateM.get, hleaf, hl, hre]
  rfl

theorem step_leaf_no_flag (hleaf : t.isLeaf = true) :
    ∃ e w, step ⟨t, [], hashes⟩ = .error e w := by
  simp only [step, bind, EStateM.bind, get, getThe, MonadStateOf.get, EStateM.get, hleaf, if_true]
  exact ⟨_, _, rfl⟩

theorem step_leaf_no_hash (hleaf : t.isLeaf = true) :
    ∃ e w, step ⟨t, bit :: flags, []⟩ = .error e w := by
  simp only [step, bind, EStateM.bind, get, getThe, MonadStateOf.get, EStateM.get, hleaf, if_true]
  exact ⟨_, _, rfl⟩

theorem step_no_flag (hleaf : t.isLeaf = false) (hl : t.leftChild = none) :
    ∃ e w, step ⟨t, [], hashes⟩ = .error e w := by
  simp only [step, bind, EStateM.bind, get, getThe, MonadStateOf.get, EStateM.get, hleaf, hl]
  exact ⟨_, _, rfl⟩

theorem step_pruned_no_hash (hleaf : t.isLeaf = false) (hl : t.leftChild = none) :
    ∃ e w, step ⟨t, false :: flags, []⟩ = .error e w := by
  simp only [step, bind, EStateM.bind, get, getThe, MonadStateOf.get, EStateM.get, hleaf, hl]
  exact ⟨_, _, rfl⟩

/-! ## Runs of steps -/

variable {w w' w'' : Walk} {e : Error} {fuel a b : Nat}

theorem loop_succ_of_ok (hroot : w.tree.root = none) (hs : step w = .ok () w') :
    loop (fuel + 1) w = loop fuel w' := by
  simp only [loop, bind, EStateM.bind, get, getThe, MonadStateOf.get, EStateM.get, hroot]
  simp only [Option.isSome_none, Bool.false_eq_true, if_false, EStateM.bind, hs]

theorem loop_succ_of_error (hroot : w.tree.root = none) (hs : step w = .error e w') :
    loop (fuel + 1) w = .error e w' := by
  simp only [loop, bind, EStateM.bind, get, getThe, MonadStateOf.get, EStateM.get, hroot]
  simp only [Option.isSome_none, Bool.false_eq_true, if_false, EStateM.bind, hs]

theorem loop_of_root (hroot : w.tree.root.isSome) : loop fuel w = .ok () w := by
  cases fuel with
  | zero => rfl
  | succ fuel =>
    simp only [loop, bind, EStateM.bind, get, getThe, MonadStateOf.get, EStateM.get, hroot]
    rfl

/-- `n` steps take the rebuild from `w` to `w'`, the root unknown before each of them. -/
def Reaches (n : Nat) (w w' : Walk) : Prop := ∀ fuel, loop (fuel + n) w = loop fuel w'

/-- The `n`-th step of the rebuild from `w` fails, the root unknown before each step. -/
def Fails (n : Nat) (w : Walk) : Prop := ∃ e w', ∀ fuel, loop (fuel + n) w = .error e w'

theorem Reaches.step (hroot : w.tree.root = none) (hs : step w = .ok () w') : Reaches 1 w w' :=
  fun _ => loop_succ_of_ok hroot hs

theorem Fails.step (hroot : w.tree.root = none) (hs : ∃ e w', step w = .error e w') : Fails 1 w :=
  let ⟨e, w', hs⟩ := hs
  ⟨e, w', fun _ => loop_succ_of_error hroot hs⟩

theorem Reaches.trans (h : Reaches a w w') (h' : Reaches b w' w'') : Reaches (a + b) w w'' := by
  intro fuel
  rw [show fuel + (a + b) = fuel + b + a by omega, h, h']

theorem Reaches.fails (h : Reaches a w w') (h' : Fails b w') : Fails (a + b) w := by
  obtain ⟨e, w'', h'⟩ := h'
  refine ⟨e, w'', fun fuel => ?_⟩
  rw [show fuel + (a + b) = fuel + b + a by omega, h, h']

theorem Reaches.loop_eq (h : Reaches a w w') (hroot : w'.tree.root.isSome) (hn : a ≤ fuel) :
    loop fuel w = .ok () w' := by
  obtain ⟨k, rfl⟩ := Nat.exists_eq_add_of_le' hn
  rw [h k, loop_of_root hroot]

theorem Fails.loop_eq (h : Fails a w) (hn : a ≤ fuel) : ∃ e w', loop fuel w = .error e w' := by
  obtain ⟨e, w', h⟩ := h
  obtain ⟨k, rfl⟩ := Nat.exists_eq_add_of_le' hn
  exact ⟨e, w', h k⟩

end Rebuild

/-! ## The cursor at a node -/

theorem root_eq_hashAt (t : MerkleTree) : t.root = t.hashAt 0 0 := rfl

/-- The tree has its shape, and its cursor is at the node `height` levels above the leaves at
`index`, which has a slot. -/
structure AtNode (t : MerkleTree) (height index : Nat) : Prop where
  shaped : t.Shaped
  height_le : height ≤ t.maxDepth
  depth_eq : t.depth = t.maxDepth - height
  index_eq : t.index = index
  index_lt : index < levelWidth t.total height

namespace AtNode

variable {height index : Nat}

theorem isLeaf_zero (ha : t.AtNode 0 index) : t.isLeaf = true := by
  simp [isLeaf, ha.depth_eq]

theorem isLeaf_succ (ha : t.AtNode (height + 1) index) : t.isLeaf = false := by
  have := ha.height_le
  simp only [isLeaf, ha.depth_eq, beq_eq_false_iff_ne]
  omega

theorem hashAt_setCurrent (ha : t.AtNode height index) :
    (t.setCurrent v).hashAt = t.hashAt.record (t.maxDepth - height) index v := by
  have hh := ha.height_le
  have hi : t.index < levelWidth t.total (t.maxDepth - t.depth) := by
    rw [ha.depth_eq, ha.index_eq, Nat.sub_sub_self hh]
    exact ha.index_lt
  rw [MerkleTree.hashAt_setCurrent ha.shaped (by rw [ha.depth_eq]; omega) hi, ha.depth_eq,
    ha.index_eq]

theorem leftChild_eq (ha : t.AtNode (height + 1) index) :
    t.leftChild = t.hashAt (t.maxDepth - height) (2 * index) := by
  have := ha.height_le
  rw [leftChild, hashAt, ha.depth_eq, ha.index_eq,
    show t.maxDepth - (height + 1) + 1 = t.maxDepth - height by omega, Nat.mul_comm]

theorem rightChild_eq (ha : t.AtNode (height + 1) index) :
    t.rightChild = t.hashAt (t.maxDepth - height) (2 * index + 1) := by
  have := ha.height_le
  rw [rightChild, hashAt, ha.depth_eq, ha.index_eq,
    show t.maxDepth - (height + 1) + 1 = t.maxDepth - height by omega, Nat.mul_comm]

theorem rightExists_eq (ha : t.AtNode (height + 1) index) :
    t.rightExists = decide (2 * index + 1 < levelWidth t.total height) := by
  have := ha.height_le
  rw [MerkleTree.rightExists_eq ha.shaped (by rw [ha.depth_eq]; omega), ha.depth_eq, ha.index_eq,
    show t.maxDepth - (t.maxDepth - (height + 1) + 1) = height by omega, Nat.mul_comm]

theorem left (ha : t.AtNode (height + 1) index) : t.left.AtNode height (2 * index) where
  shaped := ha.shaped
  height_le := by have := ha.height_le; dsimp only [MerkleTree.left]; omega
  depth_eq := by have := ha.height_le; simp only [MerkleTree.left, ha.depth_eq]; omega
  index_eq := by simp only [MerkleTree.left, ha.index_eq, Nat.mul_comm]
  index_lt := two_mul_lt_levelWidth ha.index_lt

theorem right (ha : t.AtNode (height + 1) index) (hw : 2 * index + 1 < levelWidth t.total height) :
    t.right.AtNode height (2 * index + 1) where
  shaped := ha.shaped
  height_le := by have := ha.height_le; dsimp only [MerkleTree.right]; omega
  depth_eq := by have := ha.height_le; simp only [MerkleTree.right, ha.depth_eq]; omega
  index_eq := by simp only [MerkleTree.right, ha.index_eq, Nat.mul_comm]
  index_lt := hw

end AtNode

/-! ## Entering and leaving a subtree -/

namespace Walk

variable {w w₁ w₂ : Walk} {height index : Nat} {flags : List Bool} {hashes : List Bytes}
  {l r : Reading}

/-- The rebuild is about to read the subtree of the node `height` levels above the leaves at
`index`: its cursor is at that node, and no hash in the subtree, nor the root's, is known. -/
structure Entering (w : Walk) (height index : Nat) : Prop where
  atNode : w.tree.AtNode height index
  empty : ∀ d j, Below w.tree.maxDepth height index d j → w.tree.hashAt d j = none
  root_none : w.tree.root = none

/-- The rebuild entered at `w` has read the subtree as `r` does and stands at `w'`: its cursor is
at the node's parent, its tree holds `r`'s table, and the flag bits and hashes left are `r`'s. -/
structure Returns (w w' : Walk) (height index : Nat) (r : Reading) : Prop where
  total_eq : w'.tree.total = w.tree.total
  maxDepth_eq : w'.tree.maxDepth = w.tree.maxDepth
  shaped : w'.tree.Shaped
  depth_eq : w'.tree.depth = w.tree.maxDepth - height - 1
  index_eq : w'.tree.index = index / 2
  table_eq : w'.tree.hashAt = r.table
  flags_eq : w'.flags = r.flags
  hashes_eq : w'.hashes = r.hashes

theorem returns_close {t : MerkleTree} (ha : t.AtNode height index)
    (htot : t.total = w.tree.total) (hmax : t.maxDepth = w.tree.maxDepth)
    (htab : r.table = t.hashAt.record (t.maxDepth - height) index v) (hf : r.flags = flags)
    (hh : r.hashes = hashes) :
    w.Returns ⟨(t.setCurrent v).up, flags, hashes⟩ height index r where
  total_eq := htot
  maxDepth_eq := hmax
  shaped := ha.shaped.setCurrent
  depth_eq := by simp only [up, MerkleTree.setCurrent, ha.depth_eq, hmax, Nat.sub_sub]
  index_eq := by simp only [up, MerkleTree.setCurrent, ha.index_eq]
  table_eq := by rw [htab, ← ha.hashAt_setCurrent]; rfl
  flags_eq := hf.symm
  hashes_eq := hh.symm

theorem Returns.atNode_parent {j : Nat} (hret : w₁.Returns w₂ height j r)
    (hh : height + 1 ≤ w₁.tree.maxDepth) (hj : j / 2 = index)
    (hi : index < levelWidth w₁.tree.total (height + 1)) :
    w₂.tree.AtNode (height + 1) index where
  shaped := hret.shaped
  height_le := by rw [hret.maxDepth_eq]; exact hh
  depth_eq := by rw [hret.depth_eq, hret.maxDepth_eq]; omega
  index_eq := hret.index_eq.trans hj
  index_lt := by rw [hret.total_eq]; exact hi

theorem Entering.leftChild_none (he : w.Entering (height + 1) index) : w.tree.leftChild = none := by
  rw [he.atNode.leftChild_eq]
  exact he.empty _ _ (below_left_child he.atNode.height_le below_self)

theorem Entering.descend [Digests] (he : w.Entering (height + 1) index) (hf : w.flags = true :: flags) :
    Rebuild.Reaches 1 w ⟨w.tree.left, flags, w.hashes⟩ ∧
      (⟨w.tree.left, flags, w.hashes⟩ : Walk).Entering height (2 * index) := by
  obtain ⟨t, F, H⟩ := w
  dsimp only at hf he ⊢
  subst hf
  refine ⟨Rebuild.Reaches.step he.root_none
    (Rebuild.step_descend he.atNode.isLeaf_succ he.leftChild_none), ?_, ?_, he.root_none⟩
  · exact he.atNode.left
  · exact fun d j hb => he.empty d j (below_left_child he.atNode.height_le hb)

section Children

variable [Digests] {w₃ w₄ : Walk}

theorem Entering.left_table (he : w.Entering (height + 1) index)
    (hl : Reads w.tree.total w.tree.maxDepth height (2 * index) w.tree.hashAt flags hashes l) :
    l.table (w.tree.maxDepth - height) (2 * index) = some l.hash ∧ l.table 0 0 = none ∧
      ∀ d j, Below w.tree.maxDepth height (2 * index + 1) d j → l.table d j = none := by
  have hD := he.atNode.height_le
  have frame : ∀ d j, ¬Below w.tree.maxDepth height (2 * index) d j →
      l.table d j = w.tree.hashAt d j := fun d j hb => hl.table_of_not_below (by omega) hb
  refine ⟨hl.table_self, ?_, fun d j hb => ?_⟩
  · rw [frame 0 0 (not_below_root (by omega))]
    exact he.root_none
  · have hne : ¬Below w.tree.maxDepth height (2 * index) d j := fun hb' => by
      have := hb'.index_eq hb
      omega
    rw [frame d j hne]
    exact he.empty d j (below_right_child hD hb)

theorem Entering.right_table (he : w.Entering (height + 1) index)
    (hl : Reads w.tree.total w.tree.maxDepth height (2 * index) w.tree.hashAt flags hashes l)
    (hr : Reads w.tree.total w.tree.maxDepth height (2 * index + 1) l.table l.flags l.hashes r) :
    r.table (w.tree.maxDepth - height) (2 * index) = some l.hash ∧
      r.table (w.tree.maxDepth - height) (2 * index + 1) = some r.hash ∧ r.table 0 0 = none := by
  have hD := he.atNode.height_le
  obtain ⟨hleft, hroot, -⟩ := he.left_table hl
  have frame : ∀ d j, ¬Below w.tree.maxDepth height (2 * index + 1) d j →
      r.table d j = l.table d j := fun d j hb => hr.table_of_not_below (by omega) hb
  refine ⟨?_, hr.table_self, ?_⟩
  · rw [frame _ _ fun hb => by have := hb.index_eq below_self; omega]
    exact hleft
  · rw [frame 0 0 (not_below_root (by omega))]
    exact hroot

theorem Entering.right_after_left (he : w.Entering (height + 1) index)
    (hl : Reads w.tree.total w.tree.maxDepth height (2 * index) w.tree.hashAt flags w.hashes l)
    (hret : (⟨w.tree.left, flags, w.hashes⟩ : Walk).Returns w₂ height (2 * index) l)
    (hw : 2 * index + 1 < levelWidth w.tree.total height) :
    Rebuild.Reaches 1 w₂ ⟨w₂.tree.right, w₂.flags, w₂.hashes⟩ ∧
      (⟨w₂.tree.right, w₂.flags, w₂.hashes⟩ : Walk).Entering height (2 * index + 1) := by
  have hD := he.atNode.height_le
  have hmax : w₂.tree.maxDepth = w.tree.maxDepth := hret.maxDepth_eq
  have ha : w₂.tree.AtNode (height + 1) index :=
    hret.atNode_parent hD (by omega) he.atNode.index_lt
  obtain ⟨hleft, hroot, hempty⟩ := he.left_table hl
  have hre : w₂.tree.rightExists = true := by
    rw [ha.rightExists_eq, hret.total_eq]
    exact decide_eq_true hw
  have hl' : w₂.tree.leftChild = some l.hash := by
    rw [ha.leftChild_eq, hret.table_eq, hmax]
    exact hleft
  have hr' : w₂.tree.rightChild = none := by
    rw [ha.rightChild_eq, hret.table_eq, hmax]
    exact hempty _ _ below_self
  have hroot' : w₂.tree.root = none := by
    rw [root_eq_hashAt, hret.table_eq]
    exact hroot
  refine ⟨Rebuild.Reaches.step hroot' (Rebuild.step_right ha.isLeaf_succ hl' hre hr'),
    ha.right (by rw [hret.total_eq]; exact hw), fun d j hb => ?_, hroot'⟩
  change Below w₂.tree.maxDepth height (2 * index + 1) d j at hb
  change w₂.tree.hashAt d j = none
  rw [hret.table_eq]
  exact hempty d j (by rwa [hmax] at hb)

theorem Entering.pair_after_right (he : w.Entering (height + 1) index)
    (hl : Reads w.tree.total w.tree.maxDepth height (2 * index) w.tree.hashAt flags hashes l)
    (hr : Reads w.tree.total w.tree.maxDepth height (2 * index + 1) l.table l.flags l.hashes r)
    (hret : w₃.Returns w₄ height (2 * index + 1) r)
    (htot : w₃.tree.total = w.tree.total) (hmax : w₃.tree.maxDepth = w.tree.maxDepth)
    (hw : 2 * index + 1 < levelWidth w.tree.total height) :
    Rebuild.Reaches 1 w₄ ⟨(w₄.tree.setCurrent (parent l.hash r.hash)).up, r.flags, r.hashes⟩ ∧
      w.Returns ⟨(w₄.tree.setCurrent (parent l.hash r.hash)).up, r.flags, r.hashes⟩ (height + 1)
        index (r.close (w.tree.maxDepth - (height + 1)) index (parent l.hash r.hash)) := by
  have hD := he.atNode.height_le
  have hmax' : w₄.tree.maxDepth = w.tree.maxDepth := hret.maxDepth_eq.trans hmax
  have htot' : w₄.tree.total = w.tree.total := hret.total_eq.trans htot
  have ha : w₄.tree.AtNode (height + 1) index :=
    hret.atNode_parent (by omega) (by omega) (by rw [htot]; exact he.atNode.index_lt)
  obtain ⟨hleft, hright, hroot⟩ := he.right_table hl hr
  have hre : w₄.tree.rightExists = true := by
    rw [ha.rightExists_eq, htot']
    exact decide_eq_true hw
  obtain ⟨t, F, H⟩ := w₄
  dsimp only at hret hmax' htot' ha hre ⊢
  obtain rfl : F = r.flags := hret.flags_eq
  obtain rfl : H = r.hashes := hret.hashes_eq
  refine ⟨Rebuild.Reaches.step (by rw [root_eq_hashAt, hret.table_eq]; exact hroot)
    (Rebuild.step_pair ha.isLeaf_succ ?_ hre ?_), returns_close ha htot' hmax' ?_ rfl rfl⟩
  · rw [ha.leftChild_eq, hret.table_eq, hmax']
    exact hleft
  · rw [ha.rightChild_eq, hret.table_eq, hmax']
    exact hright
  · rw [hret.table_eq, hmax']
    rfl

theorem Entering.single_after_left (he : w.Entering (height + 1) index)
    (hl : Reads w.tree.total w.tree.maxDepth height (2 * index) w.tree.hashAt flags w.hashes l)
    (hret : (⟨w.tree.left, flags, w.hashes⟩ : Walk).Returns w₂ height (2 * index) l)
    (hw : ¬2 * index + 1 < levelWidth w.tree.total height) :
    Rebuild.Reaches 1 w₂ ⟨(w₂.tree.setCurrent (parent l.hash l.hash)).up, l.flags, l.hashes⟩ ∧
      w.Returns ⟨(w₂.tree.setCurrent (parent l.hash l.hash)).up, l.flags, l.hashes⟩ (height + 1)
        index (l.close (w.tree.maxDepth - (height + 1)) index (parent l.hash l.hash)) := by
  have hD := he.atNode.height_le
  have ha : w₂.tree.AtNode (height + 1) index :=
    hret.atNode_parent hD (by omega) he.atNode.index_lt
  obtain ⟨hleft, hroot, -⟩ := he.left_table hl
  have hre : w₂.tree.rightExists = false := by
    rw [ha.rightExists_eq, hret.total_eq]
    exact decide_eq_false hw
  have htot : w₂.tree.total = w.tree.total := hret.total_eq
  have hmax : w₂.tree.maxDepth = w.tree.maxDepth := hret.maxDepth_eq
  obtain ⟨t, F, H⟩ := w₂
  dsimp only at hret ha hre htot hmax ⊢
  obtain rfl : F = l.flags := hret.flags_eq
  obtain rfl : H = l.hashes := hret.hashes_eq
  refine ⟨Rebuild.Reaches.step (by rw [root_eq_hashAt, hret.table_eq]; exact hroot)
    (Rebuild.step_single ha.isLeaf_succ ?_ hre), returns_close ha htot hmax ?_ rfl rfl⟩
  · rw [ha.leftChild_eq, hret.table_eq, hmax]
    exact hleft
  · rw [hret.table_eq, hmax]
    rfl

end Children

end Walk

/-! ## The rebuild follows the reading -/

section Simulation

variable [Digests] {total maxDepth height index : Nat} {table : NodeTable} {flags : List Bool}
  {hashes : List Bytes} {r : Reading}

/-- Entered at a node whose subtree is unknown, the rebuild reads the subtree as `read` does, in
fewer than two steps for each flag bit it uses. -/
theorem reaches_of_reads (hr : Reads total maxDepth height index table flags hashes r) (w : Walk)
    (htot : w.tree.total = total) (hmax : w.tree.maxDepth = maxDepth)
    (htab : w.tree.hashAt = table) (hf : w.flags = flags) (hh : w.hashes = hashes)
    (he : w.Entering height index) :
    ∃ n w', n < 2 * (flags.length - r.flags.length) ∧ Rebuild.Reaches n w w' ∧
      w.Returns w' height index r := by
  induction hr generalizing w with
  | leaf =>
      obtain ⟨t, F, H⟩ := w
      dsimp only at htot hmax htab hf hh he
      subst hf hh htab hmax
      exact ⟨1, _, by simp,
        Rebuild.Reaches.step he.root_none (Rebuild.step_leaf he.atNode.isLeaf_zero),
        Walk.returns_close he.atNode rfl rfl rfl rfl rfl⟩
  | pruned =>
      obtain ⟨t, F, H⟩ := w
      dsimp only at htot hmax htab hf hh he
      subst hf hh htab hmax
      exact ⟨1, _, by simp,
        Rebuild.Reaches.step he.root_none
          (Rebuild.step_pruned he.atNode.isLeaf_succ he.leftChild_none),
        Walk.returns_close he.atNode rfl rfl rfl rfl rfl⟩
  | pair hw hl hr ihl ihr =>
      subst htot hmax htab hh
      -- descend, read the left child, move right, read the right child, close the node
      obtain ⟨reach1, he1⟩ := he.descend hf
      obtain ⟨n1, w₂, hn1, reach2, hret2⟩ :=
        ihl ⟨w.tree.left, _, w.hashes⟩ rfl rfl rfl rfl rfl he1
      obtain ⟨reach3, he3⟩ := he.right_after_left hl hret2 hw
      obtain ⟨n3, w₄, hn3, reach4, hret4⟩ := ihr ⟨w₂.tree.right, w₂.flags, w₂.hashes⟩
        hret2.total_eq hret2.maxDepth_eq hret2.table_eq hret2.flags_eq hret2.hashes_eq he3
      obtain ⟨reach5, hret5⟩ := he.pair_after_right hl hr hret4 hret2.total_eq hret2.maxDepth_eq hw
      refine ⟨1 + n1 + 1 + n3 + 1, _, ?_,
        (((reach1.trans reach2).trans reach3).trans reach4).trans reach5, hret5⟩
      have := hl.flags_length_lt
      have := hr.flags_length_lt
      simp only [Reading.close, List.length_cons]
      omega
  | single hw hl ihl =>
      subst htot hmax htab hh
      obtain ⟨reach1, he1⟩ := he.descend hf
      obtain ⟨n1, w₂, hn1, reach2, hret2⟩ := ihl ⟨w.tree.left, _, w.hashes⟩ rfl rfl rfl rfl rfl he1
      obtain ⟨reach3, hret3⟩ := he.single_after_left hl hret2 hw
      refine ⟨1 + n1 + 1, _, ?_, (reach1.trans reach2).trans reach3, hret3⟩
      have := hl.flags_length_lt
      simp only [Reading.close, List.length_cons]
      omega

/-- Entered at a node whose subtree is unknown, the rebuild fails where `read` fails. Before the
failure it uses some `m` flag bits, at most `height + 1` for each hash it has and one more, and it
fails at a step no later than `2 * m + 1`. -/
theorem fails_of_read_eq_none
    (hr : Merkle.read total maxDepth height index table flags hashes = none) (w : Walk) (htot : w.tree.total = total) (hmax : w.tree.maxDepth = maxDepth)
    (htab : w.tree.hashAt = table) (hf : w.flags = flags) (hh : w.hashes = hashes)
    (he : w.Entering height index) :
    ∃ n m, n ≤ 2 * m + 1 ∧ m ≤ flags.length ∧ m ≤ (height + 1) * (hashes.length + 1) ∧
      Rebuild.Fails n w := by
  induction height, index, table, flags, hashes using read.induct generalizing w with
  | case1 height index table hashes =>
      obtain ⟨t, F, H⟩ := w
      dsimp only at hf he
      subst hf
      refine ⟨1, 0, by omega, by simp, by simp, Rebuild.Fails.step he.root_none ?_⟩
      cases height with
      | zero => exact Rebuild.step_leaf_no_flag he.atNode.isLeaf_zero
      | succ height => exact Rebuild.step_no_flag he.atNode.isLeaf_succ he.leftChild_none
  | case2 index table bit flags hashes =>
      cases hashes with
      | cons => simp [Merkle.read, takeHash] at hr
      | nil =>
          obtain ⟨t, F, H⟩ := w
          dsimp only at hf hh he
          subst hf hh
          exact ⟨1, 1, by omega, by simp, by simp,
            Rebuild.Fails.step he.root_none (Rebuild.step_leaf_no_hash he.atNode.isLeaf_zero)⟩
  | case3 height index table flags hashes =>
      cases hashes with
      | cons => simp [Merkle.read, takeHash] at hr
      | nil =>
          obtain ⟨t, F, H⟩ := w
          dsimp only at hf hh he
          subst hf hh
          exact ⟨1, 1, by omega, by simp, by simp,
            Rebuild.Fails.step he.root_none
              (Rebuild.step_pruned_no_hash he.atNode.isLeaf_succ he.leftChild_none)⟩
  | case4 height index table flags hashes ihl ihr =>
      subst htot hmax htab hh
      rw [Nat.succ_eq_add_one]
      obtain ⟨reach1, he1⟩ := he.descend hf
      cases hlr : Merkle.read w.tree.total w.tree.maxDepth height (2 * index) w.tree.hashAt flags
        w.hashes with
      | none =>
          -- the left child fails
          obtain ⟨n, m, hn, hmf, hmh, hfail⟩ :=
            ihl hlr ⟨w.tree.left, _, w.hashes⟩ rfl rfl rfl rfl rfl he1
          have e : (height + 1 + 1) * (w.hashes.length + 1) =
              (height + 1) * (w.hashes.length + 1) + (w.hashes.length + 1) := by ring
          exact ⟨1 + n, 1 + m, by omega, by simp; omega, by omega, reach1.fails hfail⟩
      | some l =>
          -- without a right child the node would be read, so the right child fails
          have hw : 2 * index + 1 < levelWidth w.tree.total height := by
            by_contra hw
            rw [read_left_eq_none hw hr] at hlr
            cases hlr
          have hl := read_eq_some_iff.1 hlr
          obtain ⟨n1, w₂, hn1, reach2, hret2⟩ :=
            reaches_of_reads hl ⟨w.tree.left, _, w.hashes⟩ rfl rfl rfl rfl rfl he1
          obtain ⟨reach3, he3⟩ := he.right_after_left hl hret2 hw
          obtain ⟨n, m, hn, hmf, hmh, hfail⟩ := ihr l (read_right_eq_none hw hlr hr)
            ⟨w₂.tree.right, w₂.flags, w₂.hashes⟩ hret2.total_eq hret2.maxDepth_eq hret2.table_eq
            hret2.flags_eq hret2.hashes_eq he3
          have hfl := hl.flags_used_le
          have hhl := hl.hashes_used
          have e : (height + 1 + 1) * (w.hashes.length + 1) =
              (height + 1) * (w.hashes.length - l.hashes.length) +
                (height + 1) * (l.hashes.length + 1) + (w.hashes.length + 1) := by
            rw [show w.hashes.length + 1 =
              (w.hashes.length - l.hashes.length) + (l.hashes.length + 1) by omega]
            ring
          refine ⟨1 + n1 + 1 + n, 1 + (flags.length - l.flags.length) + m, by omega,
            by simp; omega, by omega, ((reach1.trans reach2).trans reach3).fails hfail⟩

end Simulation

/-! ## Populating a tree from `create` -/

theorem le_foldl_add_size (levels : List (Array (Option Bytes))) (acc : Nat) :
    acc ≤ levels.foldl (fun n level => n + level.size) acc := by
  induction levels generalizing acc with
  | nil => exact le_rfl
  | cons level levels ih => exact (Nat.le_add_right _ _).trans (ih _)

theorem size_le_foldl_add_size {levels : List (Array (Option Bytes))}
    {level : Array (Option Bytes)} (h : level ∈ levels) (acc : Nat) :
    acc + level.size ≤ levels.foldl (fun n level => n + level.size) acc := by
  induction levels generalizing acc with
  | nil => cases h
  | cons first levels ih =>
      rcases List.mem_cons.1 h with rfl | h
      · exact le_foldl_add_size levels _
      · have := ih h (acc + first.size)
        simp only [List.foldl_cons]
        omega

theorem size_le_slotCount {d : Nat} {level : Array (Option Bytes)} (h : t.levels[d]? = some level) :
    level.size ≤ t.slotCount := by
  have := size_le_foldl_add_size (Array.mem_toList_iff.2 (Array.mem_of_getElem? h)) 0
  rw [Array.foldl_toList] at this
  simpa [slotCount] using this

theorem Shaped.total_le_slotCount (hs : t.Shaped) : t.total ≤ t.slotCount := by
  obtain ⟨level, hlev, hsize⟩ := hs.level le_rfl
  have := size_le_slotCount hlev
  rwa [hsize, Nat.sub_self, levelWidth_zero] at this

/-- What `create` gives: a tree over `total` leaves, of its shape, with nothing known and the
cursor at the root. -/
structure Created (t : MerkleTree) (total : Nat) : Prop where
  one_le : 1 ≤ total
  total_eq : t.total = total
  maxDepth_eq : t.maxDepth = ceilLog2 total
  atRoot : t.AtNode (ceilLog2 total) 0
  empty : t.hashAt = NodeTable.empty

theorem create_eq_ok {total : Nat} (h1 : 1 ≤ total) (h2 : total ≤ maxBlockTransactions) :
    ∃ t, create total = .ok t := by
  unfold create
  rw [if_neg (by omega), if_neg (by omega)]
  exact ⟨_, rfl⟩

theorem created_of_create {total : Nat} (hc : create total = .ok t) : t.Created total := by
  unfold create at hc
  split_ifs at hc with h0 hmax
  cases hc
  refine ⟨by omega, rfl, rfl,
    ⟨fun d => ?_, le_rfl, by simp, rfl, zero_lt_levelWidth (Nat.pos_of_ne_zero h0)⟩, ?_⟩
  · -- level `d` has `⌈total / 2^(maxDepth - d)⌉` slots
    dsimp only
    split_ifs with hd
    · simp [Nat.lt_succ_of_le hd, levelWidth, Nat.one_shiftLeft]
    · simp only [List.getElem?_toArray, Array.getElem?_map]
      rw [List.getElem?_eq_none (by simp; omega)]
      rfl
  funext d i
  simp only [hashAt, slot?, NodeTable.empty, List.getElem?_toArray, Array.getElem?_map]
  cases (List.range (ceilLog2 total + 1))[d]? with
  | none => rfl
  | some _ =>
      simp only [Option.map_some, Option.bind_some, Array.getElem?_replicate]
      split_ifs <;> rfl

namespace Created

variable {total : Nat} {flags : List Bool} {hashes : List Bytes} {r : Reading} {w : Walk}

theorem entering (hc : t.Created total) :
    (⟨t, flags, hashes⟩ : Walk).Entering (ceilLog2 total) 0 where
  atNode := hc.atRoot
  empty := fun d j _ => by
    change t.hashAt d j = none
    rw [hc.empty]
    rfl
  root_none := by
    change t.hashAt 0 0 = none
    rw [hc.empty]
    rfl

theorem total_le_slotCount (hc : t.Created total) : total ≤ t.slotCount :=
  hc.total_eq ▸ hc.atRoot.shaped.total_le_slotCount

theorem loop_of_traverse_eq_some [Digests] (hc : t.Created total)
    (hr : traverse total flags hashes = some r) :
    ∃ w, Rebuild.loop (2 * t.slotCount * (t.maxDepth + 1) + flags.length + t.maxDepth + 1)
        ⟨t, flags, hashes⟩ = .ok () w ∧
      w.tree.hashAt = r.table ∧ w.flags = r.flags ∧ w.hashes = r.hashes := by
  have hr' := read_eq_some_iff.1 hr
  obtain ⟨n, w, hn, reach, hret⟩ := reaches_of_reads hr' ⟨t, flags, hashes⟩ hc.total_eq
    hc.maxDepth_eq hc.empty rfl rfl hc.entering
  have hroot : w.tree.root = some r.hash := by
    rw [root_eq_hashAt, hret.table_eq]
    simpa using hr'.table_self
  refine ⟨w, reach.loop_eq (by simp [hroot]) ?_, hret.table_eq, hret.flags_eq, hret.hashes_eq⟩
  -- the steps are fewer than two per flag bit used, at most `maxDepth + 1` bits per hash used,
  -- and no more hashes than leaves, nor leaves than slots
  have hflags := hr'.flags_used_le
  have hused := hr'.hashes_used_le_total hc.one_le
  have hslot := hc.total_le_slotCount
  have hmul : (ceilLog2 total + 1) * (hashes.length - r.hashes.length) ≤
      (ceilLog2 total + 1) * t.slotCount := Nat.mul_le_mul_left _ (by omega)
  have e : 2 * t.slotCount * (t.maxDepth + 1) = 2 * ((ceilLog2 total + 1) * t.slotCount) := by
    rw [hc.maxDepth_eq]
    ring
  omega

theorem loop_of_traverse_eq_none [Digests] (hc : t.Created total)
    (hr : traverse total flags hashes = none) (hh : hashes.length ≤ total) :
    ∃ e w, Rebuild.loop (2 * t.slotCount * (t.maxDepth + 1) + flags.length + t.maxDepth + 1)
      ⟨t, flags, hashes⟩ = .error e w := by
  obtain ⟨n, m, hn, hmf, hmh, hfail⟩ := fails_of_read_eq_none hr ⟨t, flags, hashes⟩ hc.total_eq
    hc.maxDepth_eq hc.empty rfl rfl hc.entering
  refine hfail.loop_eq ?_
  have hslot := hc.total_le_slotCount
  have hone := hc.one_le
  have hmul : (ceilLog2 total + 1) * (hashes.length + 1) ≤
      (ceilLog2 total + 1) * (2 * t.slotCount) := Nat.mul_le_mul_left _ (by omega)
  have e : 2 * t.slotCount * (t.maxDepth + 1) = (ceilLog2 total + 1) * (2 * t.slotCount) := by
    rw [hc.maxDepth_eq]
    ring
  omega

end Created

section Populate

variable [Digests] {flags : List Bool} {hashes : List Bytes} {w : Walk} {e : Error}

theorem populate_of_loop_ok (hh : hashes.length ≤ t.total) (hf : hashes.length ≤ flags.length)
    (hloop : Rebuild.loop (2 * t.slotCount * (t.maxDepth + 1) + flags.length + t.maxDepth + 1)
      ⟨t, flags, hashes⟩ = .ok () w) :
    (t.populate flags hashes).1 = w.tree ∧
      ((t.populate flags hashes).2 = none ↔ w.hashes = [] ∧ ∀ b ∈ w.flags, b = false) := by
  unfold populate
  rw [if_neg (by omega), if_neg (by omega)]
  simp only [EStateM.run, hloop]
  split_ifs with h1 h2
  · simp_all
  · simp_all
  · simp_all

theorem populate_of_loop_error (hh : hashes.length ≤ t.total) (hf : hashes.length ≤ flags.length)
    (hloop : Rebuild.loop (2 * t.slotCount * (t.maxDepth + 1) + flags.length + t.maxDepth + 1)
      ⟨t, flags, hashes⟩ = .error e w) :
    t.populate flags hashes = (w.tree, some e) := by
  unfold populate
  rw [if_neg (by omega), if_neg (by omega)]
  simp only [EStateM.run, hloop]

theorem populate_snd_ne_none_of_counts
    (h : ¬(hashes.length ≤ t.total ∧ hashes.length ≤ flags.length)) :
    (t.populate flags hashes).2 ≠ none := by
  unfold populate
  split_ifs with h1 h2
  · simp
  · simp
  · omega

variable {total : Nat} {r : Reading}

theorem Created.populate_snd_eq_none_iff (hc : t.Created total) :
    (t.populate flags hashes).2 = none ↔
      ∃ r, traverse total flags hashes = some r ∧ r.hashes = [] ∧ ∀ b ∈ r.flags, b = false := by
  constructor
  · intro hnone
    have hcounts : hashes.length ≤ t.total ∧ hashes.length ≤ flags.length := by
      by_contra hcounts
      exact populate_snd_ne_none_of_counts hcounts hnone
    cases htr : traverse total flags hashes with
    | none =>
        obtain ⟨e, w, hloop⟩ := hc.loop_of_traverse_eq_none htr (hc.total_eq ▸ hcounts.1)
        rw [populate_of_loop_error hcounts.1 hcounts.2 hloop] at hnone
        cases hnone
    | some r =>
        obtain ⟨w, hloop, -, hf, hh⟩ := hc.loop_of_traverse_eq_some htr
        have := (populate_of_loop_ok hcounts.1 hcounts.2 hloop).2.1 hnone
        rw [hf, hh] at this
        exact ⟨r, rfl, this⟩
  · rintro ⟨r, hr, hnil, hfalse⟩
    obtain ⟨hH, hF⟩ := hashes_length_le_of_traverse hc.one_le hr hnil
    obtain ⟨w, hloop, -, hf, hh⟩ := hc.loop_of_traverse_eq_some hr
    exact (populate_of_loop_ok (hc.total_eq ▸ hH) hF hloop).2.2 ⟨hh ▸ hnil, hf ▸ hfalse⟩

/-- When the reading uses every hash, the tree `populate` returns holds the reading's table, and
its root is the reading's hash. -/
theorem Created.populate_of_traverse (hc : t.Created total)
    (hr : traverse total flags hashes = some r) (hnil : r.hashes = []) :
    (t.populate flags hashes).1.hashAt = r.table ∧
      (t.populate flags hashes).1.root = some r.hash := by
  obtain ⟨hH, hF⟩ := hashes_length_le_of_traverse hc.one_le hr hnil
  obtain ⟨w, hloop, htab, -, -⟩ := hc.loop_of_traverse_eq_some hr
  rw [(populate_of_loop_ok (hc.total_eq ▸ hH) hF hloop).1, root_eq_hashAt, htab]
  exact ⟨rfl, by simpa using (read_eq_some_iff.1 hr).table_self⟩

end Populate

/-- On the tree `create` gives for a total from one to the block limit, `populate` succeeds
exactly when the depth-first reading from the root succeeds, uses every hash and leaves no set
flag bit. When the reading uses every hash, the tree `populate` returns knows the hash the reading
computed at every node it visited and nothing else, and its root is the reading's hash. The counts
`populate` checks before its first step reject only streams whose reading does not use every
hash. -/
theorem populate_iff_traverse [Digests] {total : Nat} (h1 : 1 ≤ total) (h2 : total ≤ maxBlockTransactions)
    (flags : List Bool) (hashes : List Bytes) :
    ∃ t, create total = .ok t ∧
      ((t.populate flags hashes).2 = none ↔
        ∃ r, traverse total flags hashes = some r ∧ r.hashes = [] ∧ ∀ b ∈ r.flags, b = false) ∧
      (∀ r, traverse total flags hashes = some r → r.hashes = [] →
        (t.populate flags hashes).1.root = some r.hash ∧
          (t.populate flags hashes).1.hashAt = r.table) ∧
      (total < hashes.length ∨ flags.length < hashes.length →
        ∀ r, traverse total flags hashes = some r → r.hashes ≠ []) := by
  obtain ⟨t, hct⟩ := create_eq_ok h1 h2
  have hc := created_of_create hct
  refine ⟨t, hct, hc.populate_snd_eq_none_iff, fun r hr hnil => ?_, fun hbad r hr hnil => ?_⟩
  · obtain ⟨htab, hroot⟩ := hc.populate_of_traverse hr hnil
    exact ⟨hroot, htab⟩
  · have := hashes_length_le_of_traverse h1 hr hnil
    omega

/-- Three leaves: the root's left child is pruned, and its right child has only a left child. -/
theorem populate_iff_traverse_three :
    1 ≤ 3 ∧ 3 ≤ maxBlockTransactions ∧
    ∃ t, create 3 = .ok t ∧
      ((t.populate [true, false, true, true] [[1], [2]]).2 = none ↔
        ∃ r, traverse 3 [true, false, true, true] [[1], [2]] = some r ∧ r.hashes = [] ∧
          ∀ b ∈ r.flags, b = false) ∧
      (∀ r, traverse 3 [true, false, true, true] [[1], [2]] = some r → r.hashes = [] →
        (t.populate [true, false, true, true] [[1], [2]]).1.root = some r.hash ∧
          (t.populate [true, false, true, true] [[1], [2]]).1.hashAt = r.table) ∧
      (3 < [[1], [2]].length ∨ [true, false, true, true].length < [[1], [2]].length →
        ∀ r, traverse 3 [true, false, true, true] [[1], [2]] = some r → r.hashes ≠ []) :=
  ⟨by decide, by decide, populate_iff_traverse (by decide) (by decide) _ _⟩

end Bitcoin.MerkleTree
