import Bitcoin.Proofs.Script.Multisig
import Mathlib.Data.List.NodupEquivFin
import Mathlib.Order.Fin.Basic

/-! # What `OP_CHECKMULTISIG` does on every stack

On a stack of the layout `MultisigLayout` (the rest, one more element, the signatures, their
count, the keys and their count, with at most 20 keys and no more signatures than keys)
`OP_CHECKMULTISIG` succeeds, leaves the rest, and pushes whether the signatures were made by keys
taken in strictly increasing order (`SignedInOrder`). On any other stack it fails. The greedy
matching it runs finds such a choice whenever there is one; Mathlib's `List.SublistForall₂` states
the choice.
-/

namespace Bitcoin

section Choice

variable {α β : Type} {R : α → β → Prop} {l₁ : List α} {l₂ : List β}

theorem sublistForall₂_iff_exists_strictMono :
    List.SublistForall₂ R l₁ l₂ ↔
      ∃ j : Fin l₁.length → Fin l₂.length, StrictMono j ∧ ∀ t, R l₁[t] l₂[j t] := by
  constructor
  · intro h
    obtain ⟨l, hrel, hsub⟩ := List.sublistForall₂_iff.1 h
    obtain ⟨f, hf⟩ := List.sublist_iff_exists_fin_orderEmbedding_get_eq.1 hsub
    have hlen := hrel.length_eq
    refine ⟨f ∘ Fin.cast hlen, f.strictMono.comp (Fin.cast_strictMono hlen), fun t => ?_⟩
    have hR := (List.forall₂_iff_get.1 hrel).2 t t.2 (hlen ▸ t.2)
    have hget := hf (Fin.cast hlen t)
    simp only [List.get_eq_getElem, Fin.val_cast] at hR hget
    simpa [hget] using hR
  · rintro ⟨j, hj, hR⟩
    -- the chosen elements, in order, form the sublist
    have hlen : (List.ofFn fun t => l₂[j t]).length = l₁.length := List.length_ofFn
    refine List.sublistForall₂_iff.2 ⟨List.ofFn fun t => l₂[j t], ?_, ?_⟩
    · refine List.forall₂_iff_get.2 ⟨hlen.symm, fun i h₁ h₂ => ?_⟩
      simpa using hR ⟨i, h₁⟩
    · refine List.sublist_iff_exists_fin_orderEmbedding_get_eq.2
        ⟨OrderEmbedding.ofStrictMono (j ∘ Fin.cast hlen) (hj.comp (Fin.cast_strictMono hlen)),
          fun t => ?_⟩
      simp only [List.get_eq_getElem, List.getElem_ofFn, OrderEmbedding.coe_ofStrictMono,
        Function.comp_apply]
      rfl

end Choice

namespace Semantics

variable {z : Nat} {sigs keys : List Bytes}

/-- Greedy matching succeeds exactly when the signatures check against keys taken in order. -/
theorem matchInOrder_eq_true_iff :
    matchInOrder z sigs keys = true ↔
      List.SublistForall₂ (fun sig key => checkSignature z key sig = true) sigs keys := by
  refine ⟨fun h => ?_, matchInOrder_of_sublistForall₂⟩
  -- on the keys, as the greedy pass walks them
  induction keys generalizing sigs with
  | nil =>
      cases sigs with
      | nil => exact .nil
      | cons sig sigs => exact absurd h (by simp [matchInOrder])
  | cons key keys ih =>
      cases sigs with
      | nil => exact .nil
      | cons sig sigs =>
          cases hk : checkSignature z key sig with
          | true =>
              rw [matchInOrder_cons_of_check hk] at h
              exact .cons hk (ih h)
          | false =>
              rw [matchInOrder_cons_of_not_check hk] at h
              exact .cons_right (ih h)

end Semantics

/-- Each signature checks against a key of its own, the keys taken in strictly increasing
order. -/
def SignedInOrder (z : Nat) (sigs keys : List Bytes) : Prop :=
  ∃ j : Fin sigs.length → Fin keys.length, StrictMono j ∧
    ∀ t, Semantics.checkSignature z keys[j t] sigs[t] = true

theorem matchInOrder_eq_true_iff_signedInOrder {z : Nat} {sigs keys : List Bytes} :
    Semantics.matchInOrder z sigs keys = true ↔ SignedInOrder z sigs keys :=
  Semantics.matchInOrder_eq_true_iff.trans sublistForall₂_iff_exists_strictMono

instance (z : Nat) (sigs keys : List Bytes) : Decidable (SignedInOrder z sigs keys) :=
  decidable_of_iff _ matchInOrder_eq_true_iff_signedInOrder

/-- A stack read as `OP_CHECKMULTISIG` takes it, bottom to top: the rest, one more element, the
signatures, their count, the keys and their count. Each count has at most four bytes and decodes
to the length of its list; there are at most 20 keys and no more signatures than keys. -/
structure MultisigLayout (s : Stack) where
  rest : List Bytes
  dummy : Bytes
  sigs : List Bytes
  sigCount : Bytes
  keys : List Bytes
  keyCount : Bytes
  stack_eq : s = Stack.ofBottomUp (rest ++ dummy :: sigs ++ sigCount :: keys ++ [keyCount])
  keyCount_short : keyCount.length ≤ 4
  keyCount_eq : (ScriptNum.decode keyCount).toInt = keys.length
  keys_le : keys.length ≤ 20
  sigCount_short : sigCount.length ≤ 4
  sigCount_eq : (ScriptNum.decode sigCount).toInt = sigs.length
  sigs_le : sigs.length ≤ keys.length

namespace Machine

variable (alt : Stack) (z : Nat)

theorem pop_nil : pop ⟨⟨[]⟩, alt, z⟩ = (none, ⟨⟨[]⟩, alt, z⟩) := rfl

theorem popNum_nil : popNum ⟨⟨[]⟩, alt, z⟩ = (none, ⟨⟨[]⟩, alt, z⟩) := rfl

theorem popNum_long {x : Bytes} (hx : 4 < x.length) (rest : List Bytes) :
    popNum ⟨⟨x :: rest⟩, alt, z⟩ = (none, ⟨⟨rest⟩, alt, z⟩) := by
  rw [popNum, stateM_bind_run (pop_run alt z x rest)]
  simp only [gt_iff_lt, hx, if_true]
  rfl

theorem popMany_take_run {k : Nat} {items : List Bytes} (hk : k ≤ items.length) :
    popMany k ⟨⟨items⟩, alt, z⟩ = (some (items.take k).reverse, ⟨⟨items.drop k⟩, alt, z⟩) := by
  have h := popMany_run alt z (items.take k) (items.drop k)
  rwa [List.take_append_drop, List.length_take, Nat.min_eq_left hk] at h

variable {alt z}

theorem popCounted_eq_some {max : Int64} {items ys : List Bytes} {m' : Machine}
    (h : Semantics.popCounted max ⟨⟨items⟩, alt, z⟩ = (some ys, m')) :
    ∃ x rest, items = x :: ys.reverse ++ rest ∧ x.length ≤ 4 ∧
      (ScriptNum.decode x).toInt = ys.length ∧ (ys.length : Int) ≤ max.toInt ∧
      m' = ⟨⟨rest⟩, alt, z⟩ := by
  match items, h with
  | [], h =>
      rw [Semantics.popCounted, stateM_bind_run (popNum_nil alt z)] at h
      cases h
  | x :: rest, h =>
      by_cases hx : x.length ≤ 4
      · rw [Semantics.popCounted, stateM_bind_run (popNum_run alt z hx rest)] at h
        dsimp only at h
        rw [stateM_bind_run (size_run _)] at h
        dsimp only at h
        split_ifs at h with hbad
        · cases h
        · -- the count is in range and no larger than what is left
          simp only [Int64.lt_iff_toInt_lt, gt_iff_lt, not_or, not_lt, Stack.size,
            Int64.toInt_zero] at hbad
          obtain ⟨hpos, hmax, hfit⟩ := hbad
          rw [popMany_take_run alt z hfit, Prod.mk.injEq, Option.some.injEq] at h
          obtain ⟨rfl, rfl⟩ := h
          refine ⟨x, rest.drop (ScriptNum.decode x).toInt.toNat, ?_, hx, ?_, ?_, rfl⟩
          · rw [List.reverse_reverse, List.cons_append, List.take_append_drop]
          · rw [List.length_reverse, List.length_take, Nat.min_eq_left hfit, Int.toNat_of_nonneg hpos]
          · rw [List.length_reverse, List.length_take, Nat.min_eq_left hfit, Int.toNat_of_nonneg hpos]
            exact hmax
      · rw [Semantics.popCounted, stateM_bind_run (popNum_long alt z (by omega) rest)] at h
        cases h

theorem layout_of_checkMultiSig {m : Machine} (h : (Semantics.checkMultiSig m).1 = true) :
    Nonempty (MultisigLayout m.stack) := by
  obtain ⟨⟨items⟩, alt, z⟩ := m
  rw [Semantics.checkMultiSig] at h
  -- a read that fails makes the opcode fail; the reads that succeed give the layout
  rcases hkeys : Semantics.popCounted 20 ⟨⟨items⟩, alt, z⟩ with ⟨_ | keys, m₁⟩ <;>
    rw [stateM_bind_run hkeys] at h
  · cases h
  obtain ⟨nb, items₁, rfl, hks, hkc, hk20, rfl⟩ := popCounted_eq_some hkeys
  dsimp only at h
  rcases hsigs : Semantics.popCounted keys.length.toInt64 ⟨⟨items₁⟩, alt, z⟩ with
    ⟨_ | sigs, m₂⟩ <;> rw [stateM_bind_run hsigs] at h
  · cases h
  obtain ⟨mb, items₂, rfl, hss, hsc, hsk, rfl⟩ := popCounted_eq_some hsigs
  dsimp only at h
  cases items₂ with
  | nil =>
      rw [stateM_bind_run (pop_nil alt z)] at h
      cases h
  | cons dummy rest =>
      have h20 : (20 : Int64).toInt = 20 := by decide
      have hkeys20 : keys.length ≤ 20 := by omega
      rw [Int64.toInt_ofNat_of_lt (by omega)] at hsk
      refine ⟨⟨rest.reverse, dummy, sigs, mb, keys, nb, ?_, hks, hkc, hkeys20, hss, hsc,
        by omega⟩⟩
      simp [Stack.ofBottomUp]

end Machine

/-- `OP_CHECKMULTISIG` on every stack. On a stack in its layout it succeeds, leaving the rest with
1 on top when the signatures were made by keys taken in strictly increasing order and 0
otherwise, with the alternate stack and the message hash unchanged. On any other stack (too
short, a count of more than four bytes, more than 20 keys or more signatures than keys) it
fails. -/
theorem checkMultiSig_spec (m : Machine) :
    (∀ L : MultisigLayout m.stack, Semantics.checkMultiSig m =
      (true, { m with stack := Stack.ofBottomUp (L.rest ++
        [ScriptNum.encode (if SignedInOrder m.sigHash L.sigs L.keys then 1 else 0)]) })) ∧
    ((Semantics.checkMultiSig m).1 = true → Nonempty (MultisigLayout m.stack)) := by
  refine ⟨fun L => ?_, Machine.layout_of_checkMultiSig⟩
  obtain ⟨stack, alt, z⟩ := m
  obtain ⟨rest, dummy, sigs, sigCount, keys, keyCount, hstack, hks, hkc, hk20, hss, hsc, hsk⟩ := L
  dsimp only at hstack ⊢
  subst hstack
  rw [Machine.checkMultiSig_layout_run alt z hks hkc hk20 hss hsc hsk]
  simp only [← matchInOrder_eq_true_iff_signedInOrder]

end Bitcoin
