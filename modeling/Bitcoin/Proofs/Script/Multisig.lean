import Bitcoin.Proofs.Script.Verify

/-! # Multisig scripts run

`<m> <key>*n <n> OP_CHECKMULTISIG` pops the key count and the keys, the signature count and the
signatures, and one more element, and pushes whether the signatures match keys in order. The
matching is greedy: a key that does not check against the current signature is passed over for
good. It still succeeds whenever the signatures were made by keys taken in increasing order,
because a key taken early leaves the later keys for the later signatures.
-/

namespace Bitcoin

/-- The operations of `<m> <key>*n <n> OP_CHECKMULTISIG`, the two counts pushed as script
numbers. -/
def multisigOperations (m : Nat) (keys : List Bytes) : List Operation :=
  .push (ScriptNum.encode m.toInt64) :: keys.map .push ++
    [.push (ScriptNum.encode keys.length.toInt64), .code 0xae]

theorem multisigOperations_eq (m : Nat) (keys : List Bytes) :
    multisigOperations m keys =
      (ScriptNum.encode m.toInt64 :: keys ++ [ScriptNum.encode keys.length.toInt64]).map .push ++
        [.code 0xae] := by
  simp [multisigOperations]

section Sublists

variable {α β γ : Type}

theorem sublistForall₂_of_cons {R : α → β → Prop} {a : α} {l₁ : List α} {l₂ : List β}
    (h : List.SublistForall₂ R (a :: l₁) l₂) : List.SublistForall₂ R l₁ l₂ := by
  obtain ⟨l, hl, hsub⟩ := List.sublistForall₂_iff.1 h
  obtain ⟨b, l', -, hl', rfl⟩ := List.forall₂_cons_left_iff.1 hl
  exact List.sublistForall₂_iff.2 ⟨l', hl', (List.sublist_cons_self b l').trans hsub⟩

theorem sublistForall₂_trans_forall₂ {R : α → β → Prop} {Q : β → γ → Prop}
    {T : α → γ → Prop} (hT : ∀ {a b c}, R a b → Q b c → T a c) {l₁ : List α} {l₂ : List β}
    {l₃ : List γ} (h₁ : List.SublistForall₂ R l₁ l₂) (h₂ : List.Forall₂ Q l₂ l₃) :
    List.SublistForall₂ T l₁ l₃ := by
  induction h₁ generalizing l₃ with
  | nil => exact .nil
  | cons hab _ ih =>
      obtain ⟨c, l₃, hbc, hrest, rfl⟩ := List.forall₂_cons_left_iff.1 h₂
      exact .cons (hT hab hbc) (ih hrest)
  | cons_right _ ih =>
      obtain ⟨c, l₃, -, hrest, rfl⟩ := List.forall₂_cons_left_iff.1 h₂
      exact .cons_right (ih hrest)

theorem length_le_of_sublistForall₂ {R : α → β → Prop} {l₁ : List α} {l₂ : List β}
    (h : List.SublistForall₂ R l₁ l₂) : l₁.length ≤ l₂.length := by
  obtain ⟨l, hl, hsub⟩ := List.sublistForall₂_iff.1 h
  exact hl.length_eq ▸ hsub.length_le

theorem forall_mem_of_sublistForall₂ {R : α → β → Prop} {P : α → Prop}
    (hP : ∀ {a b}, R a b → P a) {l₁ : List α} {l₂ : List β} (h : List.SublistForall₂ R l₁ l₂) :
    ∀ a ∈ l₁, P a := by
  induction h with
  | nil => simp
  | cons hab _ ih => exact List.forall_mem_cons.2 ⟨hP hab, ih⟩
  | cons_right _ ih => exact ih

theorem forall_mem_right_of_forall₂ {R : α → β → Prop} {P : β → Prop}
    (hP : ∀ {a b}, R a b → P b) {l₁ : List α} {l₂ : List β} (h : List.Forall₂ R l₁ l₂) :
    ∀ b ∈ l₂, P b := by
  induction h with
  | nil => simp
  | cons hab _ ih => exact List.forall_mem_cons.2 ⟨hP hab, ih⟩

end Sublists

theorem ScriptNum.encode_count {n : Nat} (h : n ≤ 20) :
    (encode n.toInt64).length ≤ 4 ∧ decode (encode n.toInt64) = n.toInt64 := by
  have hall : ∀ n : Fin 21, (encode n.val.toInt64).length ≤ 4 ∧
      decode (encode n.val.toInt64) = n.val.toInt64 := by decide +kernel
  exact hall ⟨n, by omega⟩

theorem stateM_bind_run {α β : Type} {x : StateM Machine α} {f : α → StateM Machine β}
    {m m' : Machine} {a : α} (h : x m = (a, m')) : (x >>= f) m = f a m' := by
  show StateT.bind x f m = _
  simp only [StateT.bind, h]
  rfl

namespace Machine

variable (alt : Stack) (z : Nat)

theorem pop_run (x : Bytes) (rest : List Bytes) :
    pop ⟨⟨x :: rest⟩, alt, z⟩ = (some x, ⟨⟨rest⟩, alt, z⟩) := rfl

theorem size_run (m : Machine) : size m = (m.stack.size, m) := rfl

theorem popMany_run (ys rest : List Bytes) :
    popMany ys.length ⟨⟨ys ++ rest⟩, alt, z⟩ = (some ys.reverse, ⟨⟨rest⟩, alt, z⟩) := by
  induction ys with
  | nil => rfl
  | cons y ys ih =>
      rw [List.length_cons, popMany, List.cons_append, stateM_bind_run (pop_run alt z y _)]
      dsimp only
      rw [stateM_bind_run ih, List.reverse_cons]
      rfl

theorem popNum_run {x : Bytes} (hx : x.length ≤ 4) (rest : List Bytes) :
    popNum ⟨⟨x :: rest⟩, alt, z⟩ = (some (ScriptNum.decode x), ⟨⟨rest⟩, alt, z⟩) := by
  rw [popNum, stateM_bind_run (pop_run alt z x rest)]
  simp only [gt_iff_lt, Nat.not_lt.2 hx, if_false]
  rfl

theorem popCounted_run {x : Bytes} (hx : x.length ≤ 4) {max : Int64} (ys rest : List Bytes)
    (hcount : (ScriptNum.decode x).toInt = ys.length) (hmax : (ys.length : Int) ≤ max.toInt) :
    Semantics.popCounted max ⟨⟨x :: ys ++ rest⟩, alt, z⟩ = (some ys.reverse, ⟨⟨rest⟩, alt, z⟩) := by
  have hok : ¬(ScriptNum.decode x < 0 ∨ ScriptNum.decode x > max ∨
      (ScriptNum.decode x).toInt.toNat > (⟨⟨ys ++ rest⟩, alt, z⟩ : Machine).stack.size) := by
    simp only [Int64.lt_iff_toInt_lt, gt_iff_lt, not_or, hcount, Stack.size, List.length_append,
      Int64.toInt_zero]
    omega
  rw [Semantics.popCounted, List.cons_append, stateM_bind_run (popNum_run alt z hx _)]
  dsimp only
  rw [stateM_bind_run (size_run _)]
  dsimp only
  rw [if_neg hok, hcount, Int.toNat_natCast, popMany_run]

theorem checkMultiSig_layout_run {rest sigs keys : List Bytes} {dummy sigCount keyCount : Bytes}
    (hks : keyCount.length ≤ 4) (hkc : (ScriptNum.decode keyCount).toInt = keys.length)
    (hk20 : keys.length ≤ 20) (hss : sigCount.length ≤ 4)
    (hsc : (ScriptNum.decode sigCount).toInt = sigs.length) (hsk : sigs.length ≤ keys.length) :
    Semantics.checkMultiSig
        ⟨Stack.ofBottomUp (rest ++ dummy :: sigs ++ sigCount :: keys ++ [keyCount]), alt, z⟩ =
      (true, ⟨Stack.ofBottomUp (rest ++
        [ScriptNum.encode (if Semantics.matchInOrder z sigs keys then 1 else 0)]), alt, z⟩) := by
  have hitems : (rest ++ dummy :: sigs ++ sigCount :: keys ++ [keyCount]).reverse =
      keyCount :: keys.reverse ++ (sigCount :: sigs.reverse ++ dummy :: rest.reverse) := by
    simp
  have h20 : (keys.reverse.length : Int) ≤ (20 : Int64).toInt := by
    have : (20 : Int64).toInt = 20 := by decide
    simp only [List.length_reverse, this]
    omega
  have hcount : (sigs.reverse.length : Int) ≤ keys.reverse.reverse.length.toInt64.toInt := by
    rw [Int64.toInt_ofNat_of_lt (by simp; omega)]
    simp only [List.length_reverse]
    omega
  simp only [Stack.ofBottomUp, hitems]
  rw [Semantics.checkMultiSig, stateM_bind_run (popCounted_run alt z hks keys.reverse _
    (by simpa using hkc) h20)]
  dsimp only
  rw [stateM_bind_run (popCounted_run alt z hss sigs.reverse _ (by simpa using hsc) hcount),
    List.reverse_reverse]
  dsimp only
  rw [stateM_bind_run (pop_run alt z dummy rest.reverse), List.reverse_reverse]
  simp [pushBool, pushNum, push, Stack.push]
  rfl

/-- `OP_CHECKMULTISIG` on `n ≤ 20` keys above `m ≤ n` signatures above one more element, with
both counts written as script numbers. -/
theorem checkMultiSig_run {keys sigs : List Bytes} (hn : keys.length ≤ 20)
    (hm : sigs.length ≤ keys.length) (dummy : Bytes) (rest : List Bytes) :
    Semantics.checkMultiSig ⟨⟨ScriptNum.encode keys.length.toInt64 :: keys.reverse ++
        (ScriptNum.encode sigs.length.toInt64 :: sigs.reverse ++ dummy :: rest)⟩, alt, z⟩ =
      (true, ⟨⟨ScriptNum.encode (if Semantics.matchInOrder z sigs keys then 1 else 0) :: rest⟩,
        alt, z⟩) := by
  obtain ⟨hks, hkc⟩ := ScriptNum.encode_count hn
  obtain ⟨hss, hsc⟩ := ScriptNum.encode_count (hm.trans hn)
  have hstack : (⟨ScriptNum.encode keys.length.toInt64 :: keys.reverse ++
      (ScriptNum.encode sigs.length.toInt64 :: sigs.reverse ++ dummy :: rest)⟩ : Stack) =
      Stack.ofBottomUp (rest.reverse ++ dummy :: sigs ++ ScriptNum.encode sigs.length.toInt64 ::
        keys ++ [ScriptNum.encode keys.length.toInt64]) := by
    simp [Stack.ofBottomUp]
  rw [hstack, checkMultiSig_layout_run alt z hks
    (by rw [hkc, Int64.toInt_ofNat_of_lt (by omega)]) hn hss
    (by rw [hsc, Int64.toInt_ofNat_of_lt (by omega)]) hm]
  simp [Stack.ofBottomUp]

end Machine

namespace Semantics

variable {z : Nat} {sig key : Bytes} {sigs keys : List Bytes}

theorem matchInOrder_cons_of_check (h : checkSignature z key sig = true) :
    matchInOrder z (sig :: sigs) (key :: keys) = matchInOrder z sigs keys := by
  simp [matchInOrder, h]

theorem matchInOrder_cons_of_not_check (h : checkSignature z key sig = false) :
    matchInOrder z (sig :: sigs) (key :: keys) = matchInOrder z (sig :: sigs) keys := by
  simp [matchInOrder, h]

theorem matchInOrder_of_sublistForall₂
    (h : List.SublistForall₂ (fun sig key => checkSignature z key sig = true) sigs keys) :
    matchInOrder z sigs keys = true := by
  -- on the keys: the greedy pass either takes the first key or passes over it
  induction keys generalizing sigs with
  | nil =>
      cases h
      rfl
  | cons key keys ih =>
      cases sigs with
      | nil => rfl
      | cons sig sigs =>
          cases hk : checkSignature z key sig with
          | true =>
              -- whether the choice used this key or a later one, the later signatures are
              -- matched among the later keys
              rw [matchInOrder_cons_of_check hk]
              apply ih
              cases h with
              | cons _ h => exact h
              | cons_right h => exact sublistForall₂_of_cons h
          | false =>
              rw [matchInOrder_cons_of_not_check hk]
              apply ih
              cases h with
              | cons hsig _ => exact absurd hsig (by simp [hk])
              | cons_right h => exact h

end Semantics

theorem checkTop_one (rest : List Bytes) (alt : Stack) (z : Nat) :
    checkTop ⟨⟨ScriptNum.encode 1 :: rest⟩, alt, z⟩ = .ok () ⟨⟨rest⟩, alt, z⟩ := by
  rw [ScriptNum.encode_one]
  rfl

theorem length_multisigPushes_le {m : Nat} {keys : List Bytes} (hm : m ≤ 20)
    (hn : keys.length ≤ 20) (hkeys : ∀ k ∈ keys, k.length ≤ maxElementSize) :
    ∀ d ∈ ScriptNum.encode m.toInt64 :: keys ++ [ScriptNum.encode keys.length.toInt64],
      d.length ≤ maxElementSize := by
  have hshort : ∀ k : Nat, k ≤ 20 → (ScriptNum.encode k.toInt64).length ≤ maxElementSize :=
    fun k hk => ((ScriptNum.encode_count hk).1).trans (by decide)
  intro d hd
  simp only [List.cons_append, List.mem_cons, List.mem_append, List.not_mem_nil, or_false] at hd
  rcases hd with rfl | hd | rfl
  · exact hshort m hm
  · exact hkeys d hd
  · exact hshort _ hn

theorem decodable_pushes {ds : List Bytes} (h : ∀ d ∈ ds, d.length ≤ maxElementSize) :
    ∀ op ∈ ds.map Operation.push, op.Decodable := by
  simp only [List.mem_map, forall_exists_index, and_imp, forall_apply_eq_imp_iff₂]
  intro d hd
  have hlen := h d hd
  simp only [Operation.Decodable, maxElementSize] at hlen ⊢
  omega

theorem pushes_operations_ofBytes_raw {ds : List Bytes}
    (h : ∀ d ∈ ds, d.length ≤ maxElementSize) :
    (Script.ofBytes (Script.ofOperations (ds.map .push)).raw).operations = .ok (ds.map .push) ∧
      (Script.ofBytes (Script.ofOperations (ds.map .push)).raw).isPushOnly = true := by
  have hops := Script.operations_ofBytes_raw _ (decodable_pushes h)
  refine ⟨hops, ?_⟩
  simp only [Script.isPushOnly, hops, List.all_map, List.all_eq_true, Function.comp_apply,
    Operation.isPush, implies_true]

theorem multisig_operations_ofBytes_raw {m : Nat} {keys : List Bytes} (hm : m ≤ 20)
    (hn : keys.length ≤ 20) (hkeys : ∀ k ∈ keys, k.length ≤ maxElementSize) :
    (Script.ofBytes (Script.ofOperations (multisigOperations m keys)).raw).operations =
      .ok (multisigOperations m keys) := by
  apply Script.operations_ofBytes_raw
  rw [multisigOperations_eq]
  intro op hop
  rcases List.mem_append.1 hop with hop | hop
  · exact decodable_pushes (length_multisigPushes_le hm hn hkeys) op hop
  · rw [List.mem_singleton.1 hop]
    decide

/-- `<m> <key>*n <n> OP_CHECKMULTISIG` on `m` signatures above one more element takes them all
off and passes when the signatures match the keys in order. -/
theorem multisig_run [Digests] {keys sigs : List Bytes} (dummy : Bytes) (rest : List Bytes) (alt : Stack)
    (z : Nat) (hn : keys.length ≤ 20) (hm : sigs.length ≤ keys.length)
    (hkeys : ∀ k ∈ keys, k.length ≤ maxElementSize)
    (hdepth : keys.length + sigs.length + rest.length + alt.size + 3 ≤ maxStackSize)
    (hmatch : Semantics.matchInOrder z sigs keys = true) :
    (do evaluate (multisigOperations sigs.length keys); checkTop)
      ⟨⟨sigs.reverse ++ dummy :: rest⟩, alt, z⟩ = .ok () ⟨⟨rest⟩, alt, z⟩ := by
  -- the pushes leave the counts and the keys above the signatures as `OP_CHECKMULTISIG` pops them
  have hstack : (ScriptNum.encode sigs.length.toInt64 :: keys ++
      [ScriptNum.encode keys.length.toInt64]).reverse ++ (sigs.reverse ++ dummy :: rest) =
      ScriptNum.encode keys.length.toInt64 :: keys.reverse ++
        (ScriptNum.encode sigs.length.toInt64 :: sigs.reverse ++ dummy :: rest) := by
    simp
  have hrun : evaluate (multisigOperations sigs.length keys)
      ⟨⟨sigs.reverse ++ dummy :: rest⟩, alt, z⟩ =
      .ok () ⟨⟨ScriptNum.encode 1 :: rest⟩, alt, z⟩ := by
    rw [evaluate, multisigOperations_eq, evaluateFrom_pushes _ _ _ _ _
      (length_multisigPushes_le (by omega) hn hkeys)
        (by simp only [List.cons_append, List.length_cons, List.length_append, List.length_reverse,
          List.length_nil]; omega), hstack,
      evaluateFrom_cons_run (stepOperation_action_run rfl rfl
        (Machine.checkMultiSig_run alt z hn hm dummy rest))
        (by simp only [Machine.depth_mk, List.length_cons]; omega), hmatch, if_pos rfl]
    rfl
  rw [run_bind_of_ok hrun, checkTop_one]

end Bitcoin
