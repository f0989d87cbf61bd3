import Bitcoin.Tx.Verify
import Bitcoin.Proofs.Wire.Decode

/-! # What a signature hash commits to

The SIGHASH_ALL preimage of an input reads no unlocking script and not the network, and it
determines everything else: the wire format is a prefix code, so two transactions whose counts and
locking-script lengths fit their VarInts have the same preimage exactly when they agree on the
version, the lock time, the outputs, and input by input on the spent output and the sequence.
-/

namespace Bitcoin

theorem FixedBytes.eq_of_reverse_toList {h h' : FixedBytes n}
    (e : h.reverse.toList = h'.reverse.toList) : h = h' := by
  obtain ⟨bs, hbs⟩ := h
  obtain ⟨bs', hbs'⟩ := h'
  simp only [FixedBytes.reverse, List.reverse_inj] at e
  subst e
  rfl

namespace TxIn

/-- What a signature hash commits to of an input: the spent output and the sequence number. -/
def committed (i : TxIn) : FixedBytes 32 × UInt32 × UInt32 :=
  (i.prevTx, i.prevIndex, i.sequence)

theorem serializeWith_congr {a b : TxIn} (h : a.committed = b.committed) (s : Bytes) :
    a.serializeWith s = b.serializeWith s := by
  simp only [committed, Prod.mk.injEq] at h
  obtain ⟨hprev, hindex, hseq⟩ := h
  rw [serializeWith, serializeWith, hprev, hindex, hseq]

theorem serializeWith_append_inj {a b : TxIn} {s r r' : Bytes}
    (h : a.serializeWith s ++ r = b.serializeWith s ++ r') : a.committed = b.committed ∧ r = r' := by
  simp only [serializeWith, List.append_assoc] at h
  have h32 : ∀ x : UInt32, x.toNat < 256 ^ 4 := fun x => (UInt32.toNat_lt x).trans_eq (by norm_num)
  -- the reversed id has 32 bytes on both sides
  obtain ⟨hprev, h⟩ := List.append_inj h
    (by rw [a.prevTx.reverse.length_toList, b.prevTx.reverse.length_toList])
  obtain ⟨hindex, h⟩ := leBytes_append_inj (h32 _) (h32 _) h
  -- the unlocking scripts are the same on both sides
  obtain ⟨hseq, hrest⟩ := leBytes_append_inj (h32 _) (h32 _) (List.append_cancel_left h)
  simp only [committed, Prod.mk.injEq]
  exact ⟨⟨FixedBytes.eq_of_reverse_toList hprev, UInt32.toNat_inj.1 hindex,
    UInt32.toNat_inj.1 hseq⟩, hrest⟩

/-- Serialized inputs, each with the unlocking script its index selects, start two byte strings
alike exactly when the inputs commit to the same data and the rests agree. -/
theorem flatMap_serializeWith_append_iff (script : Nat → Bytes) {l1 l2 : List TxIn} (k : Nat)
    (hlen : l1.length = l2.length) {r1 r2 : Bytes} :
    (l1.zipIdx k).flatMap (fun (i, j) => i.serializeWith (script j)) ++ r1 =
        (l2.zipIdx k).flatMap (fun (i, j) => i.serializeWith (script j)) ++ r2 ↔
      l1.map committed = l2.map committed ∧ r1 = r2 := by
  induction l1 generalizing l2 k with
  | nil =>
      rw [List.eq_nil_of_length_eq_zero hlen.symm]
      simp
  | cons a l1 ih =>
      obtain ⟨b, l2, rfl⟩ := List.exists_cons_of_length_eq_add_one hlen.symm
      simp only [List.zipIdx_cons, List.flatMap_cons, List.append_assoc, List.map_cons,
        List.cons.injEq, and_assoc]
      have hlen' : l1.length = l2.length := by simpa using hlen
      constructor
      · intro h
        obtain ⟨hab, h⟩ := serializeWith_append_inj h
        exact ⟨hab, (ih (k + 1) hlen').1 h⟩
      · rintro ⟨hab, hrest⟩
        rw [serializeWith_congr hab, (ih (k + 1) hlen').2 hrest]

end TxIn

namespace TxOut

theorem serialize_append_inj {a b : TxOut} {r r' : Bytes} (ha : a.scriptPubkey.length < 2 ^ 64)
    (hb : b.scriptPubkey.length < 2 ^ 64) (h : a.serialize ++ r = b.serialize ++ r') :
    a = b ∧ r = r' := by
  simp only [serialize, lengthPrefixed, List.append_assoc] at h
  have h64 : ∀ x : UInt64, x.toNat < 256 ^ 8 := fun x => (UInt64.toNat_lt x).trans_eq (by norm_num)
  obtain ⟨hvalue, h⟩ := leBytes_append_inj (h64 _) (h64 _) h
  obtain ⟨hlen, h⟩ := encodeVarint_append_inj h
  -- the VarInt holds the script length exactly
  have hlen' : a.scriptPubkey.length = b.scriptPubkey.length := by
    have := congrArg UInt64.toNat hlen
    simp only [Nat.toUInt64_eq, UInt64.toNat_ofNat', Nat.mod_eq_of_lt ha,
      Nat.mod_eq_of_lt hb] at this
    exact this
  obtain ⟨hscript, hrest⟩ := List.append_inj h hlen'
  obtain ⟨va, sa⟩ := a
  obtain ⟨vb, sb⟩ := b
  simp only at hvalue hscript
  exact ⟨by rw [UInt64.toNat_inj.1 hvalue, hscript], hrest⟩

theorem flatMap_serialize_append_iff {l1 l2 : List TxOut} (hlen : l1.length = l2.length)
    (h1 : ∀ o ∈ l1, o.scriptPubkey.length < 2 ^ 64) (h2 : ∀ o ∈ l2, o.scriptPubkey.length < 2 ^ 64)
    {r1 r2 : Bytes} :
    l1.flatMap serialize ++ r1 = l2.flatMap serialize ++ r2 ↔ l1 = l2 ∧ r1 = r2 := by
  induction l1 generalizing l2 with
  | nil =>
      rw [List.eq_nil_of_length_eq_zero hlen.symm]
      simp
  | cons a l1 ih =>
      obtain ⟨b, l2, rfl⟩ := List.exists_cons_of_length_eq_add_one hlen.symm
      simp only [List.flatMap_cons, List.append_assoc, List.cons.injEq, and_assoc]
      have hlen' : l1.length = l2.length := by simpa using hlen
      constructor
      · intro h
        obtain ⟨hab, h⟩ := serialize_append_inj (h1 a (by simp)) (h2 b (by simp)) h
        exact ⟨hab, (ih hlen' (fun o ho => h1 o (by simp [ho])) (fun o ho => h2 o (by simp [ho]))).1 h⟩
      · rintro ⟨rfl, rfl, rfl⟩
        rfl

end TxOut

namespace Tx

/-- The input and output counts and the lengths of the locking scripts are below `2^64`, so the
VarInts that carry them on the wire hold them exactly. -/
def CountsFit (t : Tx) : Prop :=
  t.inputs.length < 2 ^ 64 ∧ t.outputs.length < 2 ^ 64 ∧
    ∀ o ∈ t.outputs, o.scriptPubkey.length < 2 ^ 64

theorem length_eq_of_toUInt64_eq {m n : Nat} (hm : m < 2 ^ 64) (hn : n < 2 ^ 64)
    (h : m.toUInt64 = n.toUInt64) : m = n := by
  have := congrArg UInt64.toNat h
  simpa only [Nat.toUInt64_eq, UInt64.toNat_ofNat', Nat.mod_eq_of_lt hm, Nat.mod_eq_of_lt hn]
    using this

/-- Two transactions have the same SIGHASH_ALL preimage for an input and a script exactly when
they agree on the version, the lock time, the outputs, the number of inputs and each input's spent
output and sequence number. No unlocking script and not the network enter it. -/
theorem sigHashPreimage_eq_iff {t1 t2 : Tx} (h1 : t1.CountsFit) (h2 : t2.CountsFit) (index : Nat)
    (script : Bytes) :
    t1.sigHashPreimage index script = t2.sigHashPreimage index script ↔
      t1.version = t2.version ∧ t1.lockTime = t2.lockTime ∧ t1.outputs = t2.outputs ∧
        t1.inputs.map TxIn.committed = t2.inputs.map TxIn.committed := by
  obtain ⟨hin1, hout1, hs1⟩ := h1
  obtain ⟨hin2, hout2, hs2⟩ := h2
  have h32 : ∀ x : UInt32, x.toNat < 256 ^ 4 := fun x => (UInt32.toNat_lt x).trans_eq (by norm_num)
  simp only [sigHashPreimage, serializeWith, List.append_assoc]
  -- the unlocking script each input is serialized with
  let scriptAt (i : Nat) : Bytes := if i = index then script else []
  constructor
  · intro h
    obtain ⟨hversion, h⟩ := leBytes_append_inj (h32 _) (h32 _) h
    obtain ⟨hcount, h⟩ := encodeVarint_append_inj h
    have hlen := length_eq_of_toUInt64_eq hin1 hin2 hcount
    obtain ⟨hinputs, h⟩ := (TxIn.flatMap_serializeWith_append_iff scriptAt 0 hlen).1 h
    obtain ⟨hcount', h⟩ := encodeVarint_append_inj h
    have hlen' := length_eq_of_toUInt64_eq hout1 hout2 hcount'
    obtain ⟨houtputs, h⟩ := (TxOut.flatMap_serialize_append_iff hlen' hs1 hs2).1 h
    obtain ⟨hlock, -⟩ := leBytes_append_inj (h32 _) (h32 _) h
    exact ⟨UInt32.toNat_inj.1 hversion, UInt32.toNat_inj.1 hlock, houtputs, hinputs⟩
  · rintro ⟨hversion, hlock, houtputs, hinputs⟩
    have hlen : t1.inputs.length = t2.inputs.length := by
      simpa using congrArg List.length hinputs
    have hbytes := (TxIn.flatMap_serializeWith_append_iff scriptAt 0 hlen).2
      ⟨hinputs, (rfl : ([] : Bytes) = [])⟩
    rw [List.append_nil, List.append_nil] at hbytes
    rw [hversion, hlock, houtputs, hlen, hbytes]

/-- A one-input transaction and the same transaction with another unlocking script, on the other
network: both fit, and their preimages agree as the agreement of their committed data says. -/
theorem sigHashPreimage_eq_iff_resigned :
    Tx.CountsFit ⟨1, [⟨FixedBytes.zero 32, 0, [0x51], 0xffffffff⟩], [⟨5000, [0x51]⟩], 0, .mainnet⟩ ∧
      Tx.CountsFit ⟨1, [⟨FixedBytes.zero 32, 0, [], 0xffffffff⟩], [⟨5000, [0x51]⟩], 0, .testnet⟩ ∧
      (Tx.sigHashPreimage ⟨1, [⟨FixedBytes.zero 32, 0, [0x51], 0xffffffff⟩], [⟨5000, [0x51]⟩], 0,
          .mainnet⟩ 0 [0x76] =
        Tx.sigHashPreimage ⟨1, [⟨FixedBytes.zero 32, 0, [], 0xffffffff⟩], [⟨5000, [0x51]⟩], 0,
          .testnet⟩ 0 [0x76] ↔
        (1 : UInt32) = 1 ∧ (0 : UInt32) = 0 ∧
          ([⟨5000, [0x51]⟩] : List TxOut) = [⟨5000, [0x51]⟩] ∧
          [TxIn.committed ⟨FixedBytes.zero 32, 0, [0x51], 0xffffffff⟩] =
            [TxIn.committed ⟨FixedBytes.zero 32, 0, [], 0xffffffff⟩]) := by
  have hfit : ∀ (s : Bytes) (n : Network),
      Tx.CountsFit ⟨1, [⟨FixedBytes.zero 32, 0, s, 0xffffffff⟩], [⟨5000, [0x51]⟩], 0, n⟩ :=
    fun _ _ => ⟨by simp, by simp, by simp⟩
  exact ⟨hfit _ _, hfit _ _, sigHashPreimage_eq_iff (hfit _ _) (hfit _ _) 0 [0x76]⟩

end Tx

end Bitcoin
