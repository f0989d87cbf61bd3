import Bitcoin.Proofs.Merkle.Rebuild

/-! # The rebuild stays on the tree and stops on its own

A step records a hash and moves up, or moves to a child; a failed step reports a malformed proof
and leaves the tree (`Rebuild.stepOutcome`). So every walk the loop reaches keeps its cursor on a
slot of the tree (`Rebuild.Visits.cursorIn`), and with the fuel `populate` gives it the loop stops
because the root became known or a step failed; more fuel changes nothing
(`populate_stops_on_tree`).
-/

namespace Bitcoin.MerkleTree

open Merkle

/-- The cursor stands on a slot: its depth is a level of the tree and its index lies within that
level's width. -/
structure CursorIn (t : MerkleTree) : Prop where
  shaped : t.Shaped
  depth_le : t.depth ≤ t.maxDepth
  index_lt : t.index < levelWidth t.total (t.maxDepth - t.depth)

theorem div_two_lt_levelWidth {total height index : Nat} (h : index < levelWidth total height) :
    index / 2 < levelWidth total (height + 1) := by
  rw [lt_levelWidth_iff] at h ⊢
  calc index / 2 * 2 ^ (height + 1) = index / 2 * 2 * 2 ^ height := by ring
    _ ≤ index * 2 ^ height := Nat.mul_le_mul_right _ (Nat.div_mul_le_self index 2)
    _ < total := h

namespace CursorIn

variable {t : MerkleTree} {v : Bytes}

theorem slot (h : t.CursorIn) : ∃ level, t.levels[t.depth]? = some level ∧
    level.size = levelWidth t.total (t.maxDepth - t.depth) ∧ t.index < level.size := by
  obtain ⟨level, hlev, hsize⟩ := h.shaped.level h.depth_le
  exact ⟨level, hlev, hsize, hsize ▸ h.index_lt⟩

theorem setCurrent (h : t.CursorIn) : (t.setCurrent v).CursorIn :=
  ⟨h.shaped.setCurrent, h.depth_le, h.index_lt⟩

theorem up (h : t.CursorIn) : t.up.CursorIn := by
  have hd := h.depth_le
  refine ⟨h.shaped, by simp only [MerkleTree.up]; omega, ?_⟩
  have hi := h.index_lt
  simp only [MerkleTree.up]
  rcases Nat.eq_zero_or_pos t.depth with h0 | hpos
  · rw [h0] at hi ⊢
    exact lt_of_le_of_lt (Nat.div_le_self _ _) hi
  · rw [show t.maxDepth - (t.depth - 1) = t.maxDepth - t.depth + 1 by omega]
    exact div_two_lt_levelWidth hi

theorem left (h : t.CursorIn) (hleaf : t.isLeaf = false) : t.left.CursorIn := by
  have hlt : t.depth < t.maxDepth := by
    have := h.depth_le
    simp only [isLeaf, beq_eq_false_iff_ne] at hleaf
    omega
  have hi := h.index_lt
  rw [show t.maxDepth - t.depth = t.maxDepth - (t.depth + 1) + 1 by omega] at hi
  refine ⟨h.shaped, by simp only [MerkleTree.left]; omega, ?_⟩
  simp only [MerkleTree.left]
  rw [Nat.mul_comm]
  exact two_mul_lt_levelWidth hi

theorem right (h : t.CursorIn) (hleaf : t.isLeaf = false) (hre : t.rightExists = true) :
    t.right.CursorIn := by
  have hlt : t.depth < t.maxDepth := by
    have := h.depth_le
    simp only [isLeaf, beq_eq_false_iff_ne] at hleaf
    omega
  rw [rightExists_eq h.shaped hlt, decide_eq_true_iff] at hre
  exact ⟨h.shaped, by simp only [MerkleTree.right]; omega, hre⟩

end CursorIn

theorem AtNode.cursorIn {t : MerkleTree} {height index : Nat} (ha : t.AtNode height index) :
    t.CursorIn := by
  have := ha.height_le
  refine ⟨ha.shaped, by rw [ha.depth_eq]; omega, ?_⟩
  rw [ha.depth_eq, ha.index_eq, Nat.sub_sub_self this]
  exact ha.index_lt

namespace Rebuild

/-- What one step can do to a walk. -/
inductive StepOutcome (w : Walk) : EStateM.Result Error Walk Unit → Prop where
  /-- Record a hash at the cursor and move up. -/
  | close (h : Bytes) {w' : Walk} :
      w'.tree = (w.tree.setCurrent h).up → StepOutcome w (.ok () w')
  /-- Descend to the left child of an inner node. -/
  | descend {w' : Walk} :
      w.tree.isLeaf = false → w'.tree = w.tree.left → StepOutcome w (.ok () w')
  /-- Move to the right child of an inner node that has one. -/
  | right {w' : Walk} : w.tree.isLeaf = false → w.tree.rightExists = true →
      w'.tree = w.tree.right → StepOutcome w (.ok () w')
  /-- Fail on a malformed proof, the tree as it was. -/
  | malformed (msg : String) {w' : Walk} :
      w'.tree = w.tree → StepOutcome w (.error (.malformedMerkleProof msg) w')

theorem stepOutcome [Digests] : ∀ w : Walk, StepOutcome w (step w)
  | ⟨t, flags, hashes⟩ => by
    cases hleaf : t.isLeaf
    · cases hl : t.leftChild with
      | none =>
        cases flags with
        | nil =>
          have hs : step ⟨t, [], hashes⟩ =
              .error (.malformedMerkleProof "ran out of flag bits") ⟨t, [], hashes⟩ := by
            simp only [step, bind, EStateM.bind, get, getThe, MonadStateOf.get, EStateM.get,
              hleaf, hl]
            rfl
          rw [hs]
          exact .malformed _ rfl
        | cons bit flags =>
          cases bit with
          | true =>
            rw [step_descend hleaf hl]
            exact .descend hleaf rfl
          | false =>
            cases hashes with
            | nil =>
              have hs : step ⟨t, false :: flags, []⟩ =
                  .error (.malformedMerkleProof "ran out of hashes") ⟨t, flags, []⟩ := by
                simp only [step, bind, EStateM.bind, get, getThe, MonadStateOf.get, EStateM.get,
                  hleaf, hl]
                rfl
              rw [hs]
              exact .malformed _ rfl
            | cons h hashes =>
              rw [step_pruned hleaf hl]
              exact .close h rfl
      | some l =>
        cases hre : t.rightExists
        · rw [step_single hleaf hl hre]
          exact .close _ rfl
        · cases hr : t.rightChild with
          | none =>
            rw [step_right hleaf hl hre hr]
            exact .right hleaf hre rfl
          | some r =>
            rw [step_pair hleaf hl hre hr]
            exact .close _ rfl
    · cases flags with
      | nil =>
        have hs : step ⟨t, [], hashes⟩ =
            .error (.malformedMerkleProof "ran out of flag bits") ⟨t, [], hashes⟩ := by
          simp only [step, bind, EStateM.bind, get, getThe, MonadStateOf.get, EStateM.get,
            hleaf, if_true]
          rfl
        rw [hs]
        exact .malformed _ rfl
      | cons bit flags =>
        cases hashes with
        | nil =>
          have hs : step ⟨t, bit :: flags, []⟩ =
              .error (.malformedMerkleProof "ran out of hashes") ⟨t, flags, []⟩ := by
            simp only [step, bind, EStateM.bind, get, getThe, MonadStateOf.get, EStateM.get,
              hleaf, if_true]
            rfl
          rw [hs]
          exact .malformed _ rfl
        | cons h hashes =>
          rw [step_leaf hleaf]
          exact .close h rfl

/-- One turn of the loop: the root is still unknown and the step succeeds. -/
def Advances [Digests] (w w' : Walk) : Prop := w.tree.root = none ∧ step w = .ok () w'

def Visits [Digests] (w : Walk) : Walk → Prop := Relation.ReflTransGen Advances w

variable [Digests] {w w' v : Walk} {e : Error} {fuel : Nat}

theorem step_error (h : step w = .error e w') :
    ∃ msg, e = .malformedMerkleProof msg ∧ w'.tree = w.tree := by
  have hout := stepOutcome w
  rw [h] at hout
  cases hout with
  | malformed msg htree => exact ⟨msg, rfl, htree⟩

theorem Advances.cursorIn (h : Advances w w') (hc : w.tree.CursorIn) : w'.tree.CursorIn := by
  have hout := stepOutcome w
  rw [h.2] at hout
  cases hout with
  | close v htree => rw [htree]; exact hc.setCurrent.up
  | descend hleaf htree => rw [htree]; exact hc.left hleaf
  | right hleaf hre htree => rw [htree]; exact hc.right hleaf hre

theorem Visits.cursorIn (h : Visits w w') (hc : w.tree.CursorIn) : w'.tree.CursorIn := by
  induction h with
  | refl => exact hc
  | tail _ hstep ih => exact hstep.cursorIn ih

theorem visits_of_loop_ok : ∀ {fuel w w'}, loop fuel w = .ok () w' → Visits w w'
  | 0, w, w', h => by
    cases h
    exact .refl
  | fuel + 1, w, w', h => by
    cases hroot : w.tree.root with
    | some _ =>
      rw [loop_of_root (by simp [hroot])] at h
      cases h
      exact .refl
    | none =>
      cases hs : step w with
      | ok _ w₁ =>
        rw [loop_succ_of_ok hroot hs] at h
        exact .head ⟨hroot, hs⟩ (visits_of_loop_ok h)
      | error e w₁ =>
        rw [loop_succ_of_error hroot hs] at h
        cases h

theorem visits_of_loop_error :
    ∀ {fuel w e w'}, loop fuel w = .error e w' →
      ∃ v, Visits w v ∧ v.tree.root = none ∧ step v = .error e w'
  | 0, w, e, w', h => by cases h
  | fuel + 1, w, e, w', h => by
    cases hroot : w.tree.root with
    | some _ =>
      rw [loop_of_root (by simp [hroot])] at h
      cases h
    | none =>
      cases hs : step w with
      | ok _ w₁ =>
        rw [loop_succ_of_ok hroot hs] at h
        obtain ⟨v, hv, hvroot, hvs⟩ := visits_of_loop_error h
        exact ⟨v, .head ⟨hroot, hs⟩ hv, hvroot, hvs⟩
      | error e₁ w₁ =>
        rw [loop_succ_of_error hroot hs] at h
        cases h
        exact ⟨w, .refl, hroot, hs⟩

theorem loop_add_of_ok (h : loop fuel w = .ok () w') (hroot : w'.tree.root.isSome) (k : Nat) :
    loop (fuel + k) w = .ok () w' := by
  induction fuel generalizing w with
  | zero =>
    cases h
    exact loop_of_root hroot
  | succ fuel ih =>
    cases hw : w.tree.root with
    | some _ =>
      rw [loop_of_root (by simp [hw])] at h ⊢
      exact h
    | none =>
      cases hs : step w with
      | ok _ w₁ =>
        rw [loop_succ_of_ok hw hs] at h
        rw [show fuel + 1 + k = fuel + k + 1 by omega, loop_succ_of_ok hw hs]
        exact ih h
      | error e₁ w₁ =>
        rw [loop_succ_of_error hw hs] at h
        cases h

theorem loop_add_of_error (h : loop fuel w = .error e w') (k : Nat) :
    loop (fuel + k) w = .error e w' := by
  induction fuel generalizing w with
  | zero => cases h
  | succ fuel ih =>
    cases hw : w.tree.root with
    | some _ =>
      rw [loop_of_root (by simp [hw])] at h
      cases h
    | none =>
      rw [show fuel + 1 + k = fuel + k + 1 by omega]
      cases hs : step w with
      | ok _ w₁ =>
        rw [loop_succ_of_ok hw hs] at h ⊢
        exact ih h
      | error e₁ w₁ =>
        rw [loop_succ_of_error hw hs] at h ⊢
        exact h

end Rebuild

/-- `populate` reports no error but a malformed proof: its checks on the counts, a step that
fails, and its checks on what is left of the stream. -/
theorem populate_error [Digests] (t : MerkleTree) (flags : List Bool) (hashes : List Bytes) {e : Error}
    (h : (t.populate flags hashes).2 = some e) : ∃ msg, e = .malformedMerkleProof msg := by
  unfold populate at h
  split_ifs at h with hmany hfew
  · exact ⟨_, (Option.some.inj h).symm⟩
  · exact ⟨_, (Option.some.inj h).symm⟩
  · dsimp only at h
    split at h
    · rename_i e' w hloop
      obtain ⟨v, -, -, hs⟩ := Rebuild.visits_of_loop_error hloop
      obtain ⟨msg, rfl, -⟩ := Rebuild.step_error hs
      exact ⟨msg, (Option.some.inj h).symm⟩
    · split_ifs at h
      · exact ⟨_, (Option.some.inj h).symm⟩
      · exact ⟨_, (Option.some.inj h).symm⟩

/-- On the tree `create` gives for a total from one to the block limit, `populate` keeps its
cursor on the tree and stops on its own. Every walk its loop reaches has the cursor at a level of
the tree and an index within that level's width, so each slot it reads or writes exists. Once the
counts pass `populate`'s check, the loop ends, within the fuel `populate` gives it, at a walk it
reached where the root is known or at a step that fails, and more fuel gives the same answer. Every
error `populate` reports is a malformed proof. -/
theorem populate_stops_on_tree [Digests] {total : Nat} (h1 : 1 ≤ total) (h2 : total ≤ maxBlockTransactions)
    (flags : List Bool) (hashes : List Bytes) :
    ∃ t, create total = .ok t ∧
      (∀ w, Rebuild.Visits ⟨t, flags, hashes⟩ w →
        w.tree.depth ≤ w.tree.maxDepth ∧ ∃ level, w.tree.levels[w.tree.depth]? = some level ∧
          level.size = levelWidth w.tree.total (w.tree.maxDepth - w.tree.depth) ∧
          w.tree.index < level.size) ∧
      (hashes.length ≤ total →
        (∃ w, Rebuild.Visits ⟨t, flags, hashes⟩ w ∧ w.tree.root.isSome ∧
          ∀ k, 2 * t.slotCount * (t.maxDepth + 1) + flags.length + t.maxDepth + 1 ≤ k →
            Rebuild.loop k ⟨t, flags, hashes⟩ = .ok () w) ∨
        (∃ v e w, Rebuild.Visits ⟨t, flags, hashes⟩ v ∧ v.tree.root = none ∧
          Rebuild.step v = .error e w ∧
          ∀ k, 2 * t.slotCount * (t.maxDepth + 1) + flags.length + t.maxDepth + 1 ≤ k →
            Rebuild.loop k ⟨t, flags, hashes⟩ = .error e w)) ∧
      (∀ e, (t.populate flags hashes).2 = some e → ∃ msg, e = .malformedMerkleProof msg) := by
  obtain ⟨t, hct⟩ := create_eq_ok h1 h2
  have hc := created_of_create hct
  refine ⟨t, hct, fun w hw => ?_, fun hh => ?_, fun e he => populate_error t flags hashes he⟩
  · have hin := hw.cursorIn hc.atRoot.cursorIn
    obtain ⟨level, hlev, hsize, hidx⟩ := hin.slot
    exact ⟨hin.depth_le, level, hlev, hsize, hidx⟩
  · -- the reading from the root either succeeds, and the loop finds the root, or fails with it
    cases htr : traverse total flags hashes with
    | some r =>
      obtain ⟨w, hloop, htab, -, -⟩ := hc.loop_of_traverse_eq_some htr
      have hroot : w.tree.root = some r.hash := by
        rw [root_eq_hashAt, htab]
        simpa using (read_eq_some_iff.1 htr).table_self
      refine .inl ⟨w, Rebuild.visits_of_loop_ok hloop, by simp [hroot], fun k hk => ?_⟩
      obtain ⟨j, rfl⟩ := Nat.exists_eq_add_of_le hk
      exact Rebuild.loop_add_of_ok hloop (by simp [hroot]) j
    | none =>
      obtain ⟨e, w, hloop⟩ := hc.loop_of_traverse_eq_none htr hh
      obtain ⟨v, hv, hvroot, hvs⟩ := Rebuild.visits_of_loop_error hloop
      refine .inr ⟨v, e, w, hv, hvroot, hvs, fun k hk => ?_⟩
      obtain ⟨j, rfl⟩ := Nat.exists_eq_add_of_le hk
      exact Rebuild.loop_add_of_error hloop j

/-- Three leaves, with the stream that prunes the root's left child. -/
theorem populate_stops_on_tree_three :
    1 ≤ 3 ∧ 3 ≤ maxBlockTransactions ∧
    ∃ t, create 3 = .ok t ∧
      (∀ w, Rebuild.Visits ⟨t, [true, false, true, true], [[1], [2]]⟩ w →
        w.tree.depth ≤ w.tree.maxDepth ∧ ∃ level, w.tree.levels[w.tree.depth]? = some level ∧
          level.size = levelWidth w.tree.total (w.tree.maxDepth - w.tree.depth) ∧
          w.tree.index < level.size) ∧
      ([[1], [2]].length ≤ 3 →
        (∃ w, Rebuild.Visits ⟨t, [true, false, true, true], [[1], [2]]⟩ w ∧ w.tree.root.isSome ∧
          ∀ k, 2 * t.slotCount * (t.maxDepth + 1) + [true, false, true, true].length +
              t.maxDepth + 1 ≤ k →
            Rebuild.loop k ⟨t, [true, false, true, true], [[1], [2]]⟩ = .ok () w) ∨
        (∃ v e w, Rebuild.Visits ⟨t, [true, false, true, true], [[1], [2]]⟩ v ∧
          v.tree.root = none ∧ Rebuild.step v = .error e w ∧
          ∀ k, 2 * t.slotCount * (t.maxDepth + 1) + [true, false, true, true].length +
              t.maxDepth + 1 ≤ k →
            Rebuild.loop k ⟨t, [true, false, true, true], [[1], [2]]⟩ = .error e w)) ∧
      (∀ e, (t.populate [true, false, true, true] [[1], [2]]).2 = some e →
        ∃ msg, e = .malformedMerkleProof msg) :=
  ⟨by decide, by decide, populate_stops_on_tree (by decide) (by decide) _ _⟩

end Bitcoin.MerkleTree
