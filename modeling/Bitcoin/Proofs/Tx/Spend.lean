import Bitcoin.Tx.Verify
import Bitcoin.Proofs.Script.Verify
import Bitcoin.Proofs.Signature
import Bitcoin.Proofs.Curve.Sec
import Bitcoin.Proofs.Ecdsa

/-! # Spending a pay-to-public-key-hash output

A signature hash commits to every input's outpoint and sequence number but to no unlocking
script, so it is the same before and after the unlocking scripts are filled in. An input that
pushes the DER signature of that hash, with its hash-type byte, and the SEC key whose HASH160
the spent output names, then passes: the locking script finds the key's hash, and the signature
check reads back the key and the signature and verifies.
-/

namespace Bitcoin

theorem flatMap_serializeWith_mapIdx (l : List TxIn) (f : Nat → TxIn → Bytes)
    (g : Nat → Bytes) (k : Nat) :
    ((l.mapIdx fun j i => { i with scriptSig := f j i }).zipIdx k).flatMap
        (fun (input, i) => input.serializeWith (g i)) =
      (l.zipIdx k).flatMap (fun (input, i) => input.serializeWith (g i)) := by
  induction l generalizing f k with
  | nil => rfl
  | cons i l ih =>
      rw [List.mapIdx_cons, List.zipIdx_cons, List.zipIdx_cons, List.flatMap_cons,
        List.flatMap_cons, ih]
      rfl

namespace Tx

theorem sigHashWithScript_mapIdx [Digests] (tx : Tx) (f : Nat → TxIn → Bytes) (index : Nat)
    (script : Bytes) :
    ({ tx with inputs := tx.inputs.mapIdx fun j (i : TxIn) => { i with scriptSig := f j i } }
      ).sigHashWithScript index script = tx.sigHashWithScript index script := by
  simp only [sigHashWithScript, sigHashPreimage, serializeWith, List.length_mapIdx]
  rw [flatMap_serializeWith_mapIdx tx.inputs f (fun i => if i = index then script else []) 0]

theorem input_of_getElem? {tx : Tx} {index : Nat} {i : TxIn}
    (h : tx.inputs[index]? = some i) : tx.input index = .ok i := by
  simp only [Tx.input, h]

theorem verifyInput_eq [Digests] {tx : Tx} {index : Nat} {source : TxSource} {i : TxIn} {out : TxOut}
    (hinput : tx.inputs[index]? = some i) (hprev : i.prevOutput source tx.network = .ok out) :
    tx.verifyInput index source =
      verifyScript (.ofBytes i.scriptSig) (.ofBytes out.scriptPubkey) fun redeem =>
        (pure (tx.sigHashWithScript index ((redeem.map Script.raw).getD out.scriptPubkey)) :
          Outcome Nat) := by
  simp only [verifyInput, input_of_getElem? hinput, except_ok_bind, hprev]

end Tx

/-- An unlocking script that pushes a signature and a key passes the P2PKH locking script of the
key's hash when the signature checks against the key. -/
theorem verifyScript_p2pkh [Digests] {sigBytes key : Bytes} {h : FixedBytes 20}
    {f : Option Script → Outcome Nat} {z : Nat}
    (hsigLen : sigBytes.length ≤ maxElementSize) (hkeyLen : key.length ≤ maxElementSize)
    (hh : Hash.hash160 key = h) (hf : f none = .ok z)
    (hcheck : Semantics.checkSignature z key sigBytes = true) :
    verifyScript (.ofBytes (Script.ofOperations [.push sigBytes, .push key]).raw)
      (.ofBytes (Script.p2pkh h).raw) f = .ok .valid := by
  have hunlock := Script.operations_ofBytes_raw [.push sigBytes, .push key] (by
    simp only [List.mem_cons, List.not_mem_nil, or_false, forall_eq_or_imp, forall_eq,
      Operation.Decodable, maxElementSize] at hsigLen hkeyLen ⊢
    omega)
  have hlock : (Script.ofBytes (Script.p2pkh h).raw).operations =
      .ok [.code Opcode.dup, .code Opcode.hash160, .push h.toList, .code Opcode.equalVerify,
        .code Opcode.checkSig] :=
    Script.operations_ofBytes_raw _ (by
      simp only [List.mem_cons, List.not_mem_nil, or_false, forall_eq_or_imp, forall_eq,
        Operation.Decodable, h.length_toList]
      decide)
  have hnp : (Script.ofBytes (Script.p2pkh h).raw).isP2sh = false := by
    rw [Script.isP2sh, hlock]
  have hunlockRun : runStage "unlocking script" _ _ = _ :=
    runStage_eq_ok_iff.2 (evaluate_push_push hsigLen hkeyLen z)
  have hlockRun : runStage "locking script" _ _ = _ :=
    runStage_eq_ok_iff.2 (p2pkh_run [] {} z (by decide) hh hcheck)
  simp only [verifyScript, hunlock, hlock, hnp, verifyScript.liftExcept, pure_bind,
    Bool.false_and, Bool.false_eq_true, if_false, Bool.not_false, if_true,
    show f none = pure z from hf, hunlockRun, hlockRun]
  rfl

theorem checkSignature_of_sign {key : PrivateKey} {compressed : Bool} {pubkey : Bytes} {z k : Nat}
    {sig : Signature} (hsec : key.publicKey.sec compressed = .ok pubkey)
    (hsig : key.signWithNonce z k = .ok sig) :
    Semantics.checkSignature z pubkey (sig.der ++ [0x01]) = true := by
  obtain ⟨hr1, hrN, hs1, hshalf, hverify⟩ := key.signWithNonce_ok_spec z hsig
  have hbound : groupOrder < 2 ^ 256 := by decide
  have hhalf : halfOrder < groupOrder := by decide
  rw [Semantics.checkSignature, if_neg (by simp), List.dropLast_concat,
    Point.parseSec_sec key.represents_publicKey compressed hsec,
    Signature.parseDer_der sig (by omega) (by omega)]
  exact hverify

/-- A P2PKH output is spent by an input that pushes the signature of its signature hash, made
with any nonce, and the SEC key whose HASH160 the output names: the input verifies, whatever the
unlocking scripts of the other inputs become. -/
theorem p2pkh_spend_verifies [Digests] (key : PrivateKey) (compressed : Bool) (k : Nat) (tx : Tx)
    (index : Nat) (source : TxSource) (others : Nat → Bytes) {input : TxIn} {prev : Tx}
    {out : TxOut} {pubkey : Bytes} {z : Nat} {sig : Signature}
    (hinput : tx.inputs[index]? = some input)
    (hprev : source input.prevTx tx.network = .ok prev)
    (hout : prev.outputs[input.prevIndex.toNat]? = some out)
    (hsec : key.publicKey.sec compressed = .ok pubkey)
    (hlock : out.scriptPubkey = (Script.p2pkh (Hash.hash160 pubkey)).raw)
    (hz : tx.sigHash index none source = .ok z)
    (hsig : key.signWithNonce z k = .ok sig) :
    ({ tx with inputs := tx.inputs.mapIdx fun j (i : TxIn) =>
        { i with scriptSig := if j = index then
            (Script.ofOperations [.push (sig.der ++ [0x01]), .push pubkey]).raw else others j } }
      ).verifyInput index source = .ok .valid := by
  -- the signature hash is that of the spent locking script, before and after the scripts change
  have hprevOut : input.prevOutput source tx.network = .ok out := by
    simp only [TxIn.prevOutput, hprev, except_ok_bind, hout]
    rfl
  have hzval : z = tx.sigHashWithScript index out.scriptPubkey := by
    simp only [Tx.sigHash, Tx.input_of_getElem? hinput, except_ok_bind, hprevOut] at hz
    exact (Except.ok.inj hz).symm
  obtain ⟨hr1, hrN, hs1, hshalf, -⟩ := key.signWithNonce_ok_spec z hsig
  have hbound : groupOrder < 2 ^ 256 := by decide
  have hhalf : halfOrder < groupOrder := by decide
  have hderLen := Signature.length_der_le sig (by omega) (by omega)
  -- the spending transaction keeps the input's outpoint and the transaction's network
  generalize hspend : ({ tx with inputs := tx.inputs.mapIdx fun j (i : TxIn) =>
      { i with scriptSig := if j = index then
          (Script.ofOperations [.push (sig.der ++ [0x01]), .push pubkey]).raw else others j } } :
        Tx) = spend
  have hspendInput : spend.inputs[index]? = some { input with scriptSig :=
      (Script.ofOperations [.push (sig.der ++ [0x01]), .push pubkey]).raw } := by
    rw [← hspend]
    simp [List.getElem?_mapIdx, hinput]
  have hspendPrev : { input with scriptSig :=
      (Script.ofOperations [.push (sig.der ++ [0x01]), .push pubkey]).raw }.prevOutput source
        spend.network = .ok out := by
    rw [← hspend]
    exact hprevOut
  rw [Tx.verifyInput_eq hspendInput hspendPrev, hlock]
  apply verifyScript_p2pkh _ _ rfl _ (checkSignature_of_sign hsec hsig)
  · simp only [List.length_append, List.length_singleton, maxElementSize]
    omega
  · simp only [maxElementSize]
    have := Point.length_sec_le hsec
    omega
  · rw [← hspend, Tx.sigHashWithScript_mapIdx, ← hlock, hzval]
    rfl

/-- A one-input transaction spending output 0 of a stored transaction that pays the compressed
key of the secret 7, signed with the nonce 11. -/
theorem p2pkh_spend_verifies_example :
    let key : PrivateKey := ⟨7, by decide⟩
    let pubkey := (key.publicKey.sec true).toOption.getD []
    let out : TxOut := ⟨50000, (Script.p2pkh (Hash.hash160 pubkey)).raw⟩
    let prev : Tx := ⟨1, [], [out], 0, .mainnet⟩
    let prevId : FixedBytes 32 := ⟨List.replicate 32 0xab, rfl⟩
    let input : TxIn := ⟨prevId, 0, [], 0xffffffff⟩
    let tx : Tx := ⟨1, [input], [⟨40000, [0x51]⟩], 0, .mainnet⟩
    let source := (TxStore.insertWithId {} prevId prev).fetch
    let z := tx.sigHashWithScript 0 out.scriptPubkey
    let sig := (key.signWithNonce z 11).toOption.getD ⟨0, 0⟩
    tx.inputs[0]? = some input ∧ source input.prevTx tx.network = .ok prev ∧
      prev.outputs[input.prevIndex.toNat]? = some out ∧ key.publicKey.sec true = .ok pubkey ∧
      out.scriptPubkey = (Script.p2pkh (Hash.hash160 pubkey)).raw ∧
      tx.sigHash 0 none source = .ok z ∧ key.signWithNonce z 11 = .ok sig ∧
      ({ tx with inputs := tx.inputs.mapIdx fun j (i : TxIn) =>
          { i with scriptSig := if j = 0 then
              (Script.ofOperations [.push (sig.der ++ [0x01]), .push pubkey]).raw else [] } }
        ).verifyInput 0 source = .ok .valid := by
  intro key pubkey out prev prevId input tx source z sig
  have hinput : tx.inputs[0]? = some input := rfl
  have hprev : source input.prevTx tx.network = .ok prev := rfl
  have hout : prev.outputs[input.prevIndex.toNat]? = some out := rfl
  have hsec : key.publicKey.sec true = .ok pubkey := by decide +kernel
  have hz : tx.sigHash 0 none source = .ok z := by decide +kernel
  have hsig : key.signWithNonce z 11 = .ok sig := by decide +kernel
  exact ⟨hinput, hprev, hout, hsec, rfl, hz, hsig, p2pkh_spend_verifies key true 11 tx 0 source
    (fun _ => []) hinput hprev hout hsec rfl hz hsig⟩

end Bitcoin
