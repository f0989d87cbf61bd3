import Bitcoin.Proofs.Script.Multisig
import Bitcoin.Proofs.Tx.Spend

/-! # Spending a pay-to-script-hash multisig output

The redeem script `<m> <key>*n <n> OP_CHECKMULTISIG` is hashed into a P2SH locking script. An input
spends it by pushing a dummy element for `OP_CHECKMULTISIG`, signatures of the redeem script's
signature hash, and the redeem script itself. The locking script finds the redeem script's hash,
the callback hands the redeem script's signature hash, the redeem script reads back from its bytes,
and `OP_CHECKMULTISIG` then meets the keys, the signatures and the dummy element in the order it
pops them.
-/

namespace Bitcoin

theorem p2sh_operations_ofBytes_raw (h : FixedBytes 20) :
    (Script.ofBytes (Script.p2sh h).raw).operations =
      .ok [.code Opcode.hash160, .push h.toList, .code Opcode.equal] :=
  Script.operations_ofBytes_raw _ (by
    simp only [List.mem_cons, List.not_mem_nil, or_false, forall_eq_or_imp, forall_eq,
      Operation.Decodable, h.length_toList]
    decide)

/-- A push-only unlocking script passes `OP_HASH160 <h> OP_EQUAL` when its top element hashes to
`h`, with room to push `h`, and decodes to a redeem script that runs to a true top on what lies
below it, with the hash the callback gives for it. -/
theorem verifyScript_p2sh [Digests] {s p : Script} {f : Option Script → Outcome Nat} {h r : Bytes}
    {us ops : List Operation} {m1 m2 : Machine} {rest : List Bytes} {z : Nat}
    (hs : s.operations = .ok us) (hpush : s.isPushOnly = true)
    (hp : p.operations = .ok [.code Opcode.hash160, .push h, .code Opcode.equal])
    (hh : h.length = 20) (hu : evaluate us {} = .ok () m1) (htop : m1.stack.items = r :: rest)
    (hroom : rest.length + 1 + m1.alt.size < maxStackSize) (hhash : (Hash.hash160 r).toList = h)
    (hops : (Script.ofBytes r).operations = .ok ops) (hf : f (some (.ofBytes r)) = .ok z)
    (hredeem : (do evaluate ops; checkTop) ⟨⟨rest⟩, m1.alt, z⟩ = .ok () m2) :
    verifyScript s p f = .ok .valid := by
  obtain ⟨⟨items⟩, alt, sh⟩ := m1
  subst htop
  dsimp only at hroom hredeem
  have hlen : h.length ≤ maxElementSize := by simp [hh, maxElementSize]
  have hunlockRun : runStage "unlocking script" (evaluate us) { sigHash := 0 } = _ :=
    runStage_eq_ok_iff.2 hu
  have hlockRun : runStage "locking script"
      (do evaluate [.code Opcode.hash160, .push h, .code Opcode.equal]; checkTop)
      ⟨⟨r :: rest⟩, alt, z⟩ = _ :=
    runStage_eq_ok_iff.2 ((p2sh_locking_ok_iff hlen).2 ⟨hroom, hhash, rfl⟩)
  have hredeemRun : runStage "redeem script" _ _ = _ := runStage_eq_ok_iff.2 hredeem
  simp only [verifyScript, hs, hp, isP2sh_of_operations hp hh, hpush, verifyScript.liftExcept,
    pure_bind, Bool.not_true, Bool.and_false, Bool.false_eq_true, if_false, if_true, hunlockRun,
    Stack.peek, List.head?, hf, except_ok_bind, hlockRun, hops, hredeemRun]
  rfl

theorem TxIn.prevOutput_of_getElem? {input : TxIn} {source : TxSource} {network : Network}
    {prev : Tx} {out : TxOut} (hprev : source input.prevTx network = .ok prev)
    (hout : prev.outputs[input.prevIndex.toNat]? = some out) :
    input.prevOutput source network = .ok out := by
  simp only [TxIn.prevOutput, hprev, except_ok_bind, hout]
  rfl

namespace Tx

theorem sigHash_some [Digests] {tx : Tx} {index : Nat} {input : TxIn} (source : TxSource) (script : Script)
    (hinput : tx.inputs[index]? = some input) :
    tx.sigHash index (some script) source = .ok (tx.sigHashWithScript index script.raw) := by
  simp only [sigHash, input_of_getElem? hinput, except_ok_bind]
  rfl

theorem verifyInput_mapIdx [Digests] {tx : Tx} {index : Nat} {source : TxSource} {input : TxIn}
    {out : TxOut} (scripts : Nat → Bytes) (hinput : tx.inputs[index]? = some input)
    (hprev : input.prevOutput source tx.network = .ok out) :
    ({ tx with inputs := tx.inputs.mapIdx fun j (i : TxIn) => { i with scriptSig := scripts j } }
      ).verifyInput index source =
      verifyScript (.ofBytes (scripts index)) (.ofBytes out.scriptPubkey) fun redeem =>
        (pure (tx.sigHashWithScript index ((redeem.map Script.raw).getD out.scriptPubkey)) :
          Outcome Nat) := by
  have hspendInput : ({ tx with inputs := tx.inputs.mapIdx fun j (i : TxIn) =>
      { i with scriptSig := scripts j } } : Tx).inputs[index]? =
      some { input with scriptSig := scripts index } := by
    simp [List.getElem?_mapIdx, hinput]
  rw [verifyInput_eq hspendInput hprev]
  simp only [sigHashWithScript_mapIdx]

end Tx

theorem length_der_of_sign {key : PrivateKey} {z k : Nat} {sig : Signature}
    (h : key.signWithNonce z k = .ok sig) : (sig.der ++ [0x01]).length ≤ maxElementSize := by
  obtain ⟨hr1, hrN, hs1, hshalf, -⟩ := key.signWithNonce_ok_spec z h
  have hbound : groupOrder < 2 ^ 256 := by decide
  have hhalf : halfOrder < groupOrder := by decide
  have hder := Signature.length_der_le sig (by omega) (by omega)
  simp only [List.length_append, List.length_singleton, maxElementSize]
  omega

/-- The unlocking script that spends a multisig redeem script: a dummy element for
`OP_CHECKMULTISIG`, the signatures, each with the hash-type byte of `SIGHASH_ALL`, and the redeem
script. -/
def multisigUnlocking (sigs : List Signature) (redeem : Bytes) : List Operation :=
  .push [] :: sigs.map (fun sig => .push (sig.der ++ [0x01])) ++ [.push redeem]

theorem multisigUnlocking_eq (sigs : List Signature) (redeem : Bytes) :
    multisigUnlocking sigs redeem =
      ([] :: sigs.map (fun sig : Signature => sig.der ++ [0x01]) ++ [redeem]).map .push := by
  simp [multisigUnlocking]

/-- A P2SH output whose redeem script is `<m> <key>*n <n> OP_CHECKMULTISIG`, over at most 20 SEC
keys and in at most 520 bytes, is spent by an input that pushes a dummy element, signatures of
the redeem script's signature hash by `m` of the keys, in key order, and the redeem script: the
input verifies, whatever the unlocking scripts of the other inputs become. -/
theorem p2sh_multisig_spend_verifies [Digests] (keys : List (PrivateKey × Bool)) (pubkeys : List Bytes)
    (sigs : List Signature) (m : Nat) (tx : Tx) (index : Nat) (source : TxSource)
    (others : Nat → Bytes) {input : TxIn} {prev : Tx} {out : TxOut} {z : Nat}
    (hn : keys.length ≤ 20)
    (hsec : List.Forall₂ (fun (key : PrivateKey × Bool) pubkey =>
      key.1.publicKey.sec key.2 = .ok pubkey) keys pubkeys)
    (hm : sigs.length = m)
    (hR : (Script.ofOperations (multisigOperations m pubkeys)).raw.length ≤ maxElementSize)
    (hinput : tx.inputs[index]? = some input)
    (hprev : source input.prevTx tx.network = .ok prev)
    (hout : prev.outputs[input.prevIndex.toNat]? = some out)
    (hlock : out.scriptPubkey =
      (Script.p2sh (Hash.hash160 (Script.ofOperations (multisigOperations m pubkeys)).raw)).raw)
    (hz : tx.sigHash index (some (Script.ofOperations (multisigOperations m pubkeys))) source =
      .ok z)
    (hsigs : List.SublistForall₂ (fun sig (key : PrivateKey × Bool) =>
      ∃ k, key.1.signWithNonce z k = .ok sig) sigs keys) :
    ({ tx with inputs := tx.inputs.mapIdx fun j (i : TxIn) =>
        { i with scriptSig := if j = index then
            (Script.ofOperations (multisigUnlocking sigs
              (Script.ofOperations (multisigOperations m pubkeys)).raw)).raw
          else others j } }).verifyInput index source = .ok .valid := by
  subst hm
  rw [Tx.sigHash_some source _ hinput, Except.ok.injEq] at hz
  -- the signatures fit pushes, and check in key order against the keys' SEC encodings
  have hsigLen : ∀ b ∈ sigs.map (fun sig => sig.der ++ [0x01]), b.length ≤ maxElementSize := by
    simp only [List.mem_map, forall_exists_index, and_imp, forall_apply_eq_imp_iff₂]
    exact forall_mem_of_sublistForall₂ (fun ⟨_, hk⟩ => length_der_of_sign hk) hsigs
  have hmatch : Semantics.matchInOrder z (sigs.map fun sig => sig.der ++ [0x01]) pubkeys = true :=
    Semantics.matchInOrder_of_sublistForall₂ (List.sublistForall₂_map_left_iff.2
      (sublistForall₂_trans_forall₂ (fun ⟨_, hk⟩ hpub => checkSignature_of_sign hpub hk) hsigs
        hsec))
  have hkeyLen : ∀ pubkey ∈ pubkeys, pubkey.length ≤ maxElementSize := by
    refine forall_mem_right_of_forall₂ (fun hpub => ?_) hsec
    exact (Point.length_sec_le hpub).trans (by decide)
  have hcount := hsec.length_eq
  have hmn := length_le_of_sublistForall₂ hsigs
  -- the unlocking script pushes the dummy element, the signatures and the redeem script
  have hpushLen : ∀ d ∈ [] :: sigs.map (fun sig : Signature => sig.der ++ [0x01]) ++
      [(Script.ofOperations (multisigOperations sigs.length pubkeys)).raw],
      d.length ≤ maxElementSize := by
    intro d hd
    simp only [List.cons_append, List.mem_cons, List.mem_append, List.not_mem_nil,
      or_false] at hd
    rcases hd with rfl | hd | rfl
    · simp [maxElementSize]
    · exact hsigLen d hd
    · exact hR
  obtain ⟨hs, hpush⟩ := pushes_operations_ofBytes_raw hpushLen
  have hu := evaluate_pushes hpushLen (by
    simp only [List.cons_append, List.length_cons, List.length_append, List.length_map,
      List.length_nil, maxStackSize]
    omega)
  -- below the redeem script, `OP_CHECKMULTISIG` finds the signatures and the dummy element
  have hredeem := multisig_run [] [] {} z (by omega) (by simp only [List.length_map]; omega)
    hkeyLen (by simp only [List.length_map, List.length_nil, Stack.size, maxStackSize]; omega)
    hmatch
  rw [List.length_map] at hredeem
  rw [Tx.verifyInput_mapIdx _ hinput (TxIn.prevOutput_of_getElem? hprev hout), if_pos rfl, hlock,
    multisigUnlocking_eq]
  refine verifyScript_p2sh hs hpush (p2sh_operations_ofBytes_raw _) (FixedBytes.length_toList _)
    hu (by simp) ?_ rfl (multisig_operations_ofBytes_raw (by omega) (by omega) hkeyLen) ?_ hredeem
  · simp only [List.length_append, List.length_reverse, List.length_map, List.length_singleton,
      List.length_nil, Stack.size, maxStackSize]
    omega
  · rw [← hz]
    rfl

/-- The first and the third of three keys, the secrets 7, 11 and 13, sign with the nonces 17 and 19
a spend of the P2SH output of their 2-of-3 multisig script. -/
theorem p2sh_multisig_spend_verifies_example :
    let key₁ : PrivateKey := ⟨7, by decide⟩
    let key₂ : PrivateKey := ⟨11, by decide⟩
    let key₃ : PrivateKey := ⟨13, by decide⟩
    let keys := [(key₁, true), (key₂, false), (key₃, true)]
    let pubkeys := keys.map fun key => (key.1.publicKey.sec key.2).toOption.getD []
    let redeem := Script.ofOperations (multisigOperations 2 pubkeys)
    let out : TxOut := ⟨50000, (Script.p2sh (Hash.hash160 redeem.raw)).raw⟩
    let prev : Tx := ⟨1, [], [out], 0, .mainnet⟩
    let prevId : FixedBytes 32 := ⟨List.replicate 32 0xab, rfl⟩
    let input : TxIn := ⟨prevId, 0, [], 0xffffffff⟩
    let tx : Tx := ⟨1, [input], [⟨40000, [0x51]⟩], 0, .mainnet⟩
    let source := (TxStore.insertWithId {} prevId prev).fetch
    let z := tx.sigHashWithScript 0 redeem.raw
    let sig₁ := (key₁.signWithNonce z 17).toOption.getD ⟨0, 0⟩
    let sig₃ := (key₃.signWithNonce z 19).toOption.getD ⟨0, 0⟩
    List.Forall₂ (fun (key : PrivateKey × Bool) pubkey =>
        key.1.publicKey.sec key.2 = .ok pubkey) keys pubkeys ∧
      redeem.raw.length ≤ maxElementSize ∧ tx.sigHash 0 (some redeem) source = .ok z ∧
      List.SublistForall₂ (fun sig (key : PrivateKey × Bool) =>
        ∃ k, key.1.signWithNonce z k = .ok sig) [sig₁, sig₃] keys ∧
      ({ tx with inputs := tx.inputs.mapIdx fun j (i : TxIn) =>
          { i with scriptSig := if j = 0 then
              (Script.ofOperations (multisigUnlocking [sig₁, sig₃] redeem.raw)).raw else [] } }
        ).verifyInput 0 source = .ok .valid := by
  intro key₁ key₂ key₃ keys pubkeys redeem out prev prevId input tx source z sig₁ sig₃
  have hsec : List.Forall₂ (fun (key : PrivateKey × Bool) pubkey =>
      key.1.publicKey.sec key.2 = .ok pubkey) keys pubkeys :=
    .cons (by decide +kernel) (.cons (by decide +kernel) (.cons (by decide +kernel) .nil))
  have hR : redeem.raw.length ≤ maxElementSize := by decide +kernel
  have hz : tx.sigHash 0 (some redeem) source = .ok z := rfl
  have hsig₁ : key₁.signWithNonce z 17 = .ok sig₁ := by decide +kernel
  have hsig₃ : key₃.signWithNonce z 19 = .ok sig₃ := by decide +kernel
  have hsigs : List.SublistForall₂ (fun sig (key : PrivateKey × Bool) =>
      ∃ k, key.1.signWithNonce z k = .ok sig) [sig₁, sig₃] keys :=
    .cons ⟨17, hsig₁⟩ (.cons_right (.cons ⟨19, hsig₃⟩ .nil))
  exact ⟨hsec, hR, hz, hsigs, p2sh_multisig_spend_verifies keys pubkeys [sig₁, sig₃] 2 tx 0 source
    (fun _ => []) (by decide) hsec rfl hR rfl rfl rfl rfl hz hsigs⟩

end Bitcoin
