import Bitcoin.Tx.Store
import Bitcoin.Proofs.Wire.Varint

/-! # Transactions on the wire

The reader takes each VarInt of a transaction (its counts and script lengths) in any form that
carries the number; `serialize` writes the shortest. A `Tx.Layout` names a form for each VarInt.
Reading undoes `Tx.writeAs` in every layout that fits, and each layout gives its own bytes, so a
parsed transaction writes back to its bytes exactly when every VarInt was shortest: an input
count of zero written `fd 00 00` parses, to a transaction with another id.
-/

namespace Bitcoin

theorem flatten_zipWith_append_inj {α β : Type} {w : α → β → Bytes} {P : β → α → Prop}
    (hw : ∀ {x f g} {r r' : Bytes}, P f x → P g x → w x f ++ r = w x g ++ r' → f = g ∧ r = r')
    {xs : List α} {fs gs : List β} (hf : List.Forall₂ P fs xs) (hg : List.Forall₂ P gs xs)
    {r r' : Bytes} (h : (List.zipWith w xs fs).flatten ++ r = (List.zipWith w xs gs).flatten ++ r') :
    fs = gs ∧ r = r' := by
  induction hf generalizing gs with
  | nil =>
      rw [List.forall₂_nil_right_iff.1 hg] at h ⊢
      exact ⟨rfl, h⟩
  | @cons f x fs xs hfx _ ih =>
      obtain ⟨g, gs, hgx, hgs, rfl⟩ := List.forall₂_cons_right_iff.1 hg
      simp only [List.zipWith_cons_cons, List.flatten_cons, List.append_assoc] at h
      obtain ⟨rfl, hrest⟩ := hw hfx hgx h
      obtain ⟨rfl, hr⟩ := ih hgs hrest
      exact ⟨rfl, hr⟩

namespace TxIn

def writeAs (i : TxIn) (f : VarintForm) : Bytes :=
  i.prevTx.reverse.toList ++ leBytes 4 i.prevIndex.toNat ++ f.write i.scriptSig.length ++
    i.scriptSig ++ leBytes 4 i.sequence.toNat

theorem read_writeAs {i : TxIn} {f : VarintForm} (hf : f.Holds i.scriptSig.length)
    (position : Nat) (rest : Bytes) :
    read ⟨position, i.writeAs f ++ rest⟩ = .ok i ⟨position + (i.writeAs f).length, rest⟩ := by
  simp only [writeAs, List.append_assoc]
  rw [read, run_bind_of_ok (Decoder.hashReversed_run _ _ _), run_bind_of_ok (Decoder.u32_read _ _ _),
    ← List.append_assoc, run_bind_of_ok (Decoder.varBytes_write hf _ _),
    run_bind_of_ok (Decoder.u32_read _ _ _)]
  have hindex : i.prevIndex.toNat.toUInt32 = i.prevIndex := UInt32.toNat_inj.1 (by simp)
  have hseq : i.sequence.toNat.toUInt32 = i.sequence := UInt32.toNat_inj.1 (by simp)
  simp only [hindex, hseq, List.length_append, length_leBytes, (i.prevTx.reverse).length_toList]
  show EStateM.Result.ok _ _ = _
  congr 2
  omega

theorem read_eq_ok {r r' : Reader} {i : TxIn} (h : read r = .ok i r') :
    ∃ f : VarintForm, f.Holds i.scriptSig.length ∧ r.rest = i.writeAs f ++ r'.rest := by
  obtain ⟨prevTx, r₁, h₁, h⟩ := run_bind_eq_ok h
  obtain ⟨prevIndex, r₂, h₂, h⟩ := run_bind_eq_ok h
  obtain ⟨scriptSig, r₃, h₃, h⟩ := run_bind_eq_ok h
  obtain ⟨sequence, r₄, h₄, h⟩ := run_bind_eq_ok h
  cases h
  obtain ⟨f, hf, hrest₃⟩ := Decoder.varBytes_eq_ok h₃
  refine ⟨f, hf, ?_⟩
  rw [Decoder.hashReversed_eq_ok h₁, Decoder.u32_eq_ok h₂, hrest₃, Decoder.u32_eq_ok h₄]
  simp only [writeAs, List.append_assoc]

theorem writeAs_append_inj {i : TxIn} {f g : VarintForm} {r r' : Bytes}
    (hf : f.Holds i.scriptSig.length) (hg : g.Holds i.scriptSig.length)
    (h : i.writeAs f ++ r = i.writeAs g ++ r') : f = g ∧ r = r' := by
  simp only [writeAs, List.append_assoc] at h
  obtain ⟨hfg, h⟩ := VarintForm.write_append_inj hf hg
    (List.append_cancel_left (List.append_cancel_left h))
  exact ⟨hfg, List.append_cancel_left (List.append_cancel_left h)⟩

theorem serializeWith_eq_writeAs (i : TxIn) (h : i.scriptSig.length < 2 ^ 64) :
    i.serializeWith i.scriptSig = i.writeAs (.shortest i.scriptSig.length) := by
  rw [serializeWith, lengthPrefixed, VarintForm.encodeVarint_eq h, writeAs]
  simp only [List.append_assoc]

theorem flatten_writeAs_append_inj {ins : List TxIn} {fs gs : List VarintForm}
    (hf : List.Forall₂ (fun f (i : TxIn) => f.Holds i.scriptSig.length) fs ins)
    (hg : List.Forall₂ (fun f (i : TxIn) => f.Holds i.scriptSig.length) gs ins) {r r' : Bytes}
    (h : (List.zipWith writeAs ins fs).flatten ++ r = (List.zipWith writeAs ins gs).flatten ++ r') :
    fs = gs ∧ r = r' :=
  @flatten_zipWith_append_inj TxIn VarintForm writeAs (fun f i => f.Holds i.scriptSig.length)
    (fun hf hg h => writeAs_append_inj hf hg h) ins fs gs hf hg r r' h

theorem read_times {ins : List TxIn} {fs : List VarintForm}
    (h : List.Forall₂ (fun f (i : TxIn) => f.Holds i.scriptSig.length) fs ins) (position : Nat)
    (rest : Bytes) :
    Decoder.times read ins.length ⟨position, (List.zipWith writeAs ins fs).flatten ++ rest⟩ =
      .ok ins ⟨position + (List.zipWith writeAs ins fs).flatten.length, rest⟩ :=
  Decoder.times_zipWith (fun position rest hf => read_writeAs hf position rest) h position rest

end TxIn

namespace TxOut

def writeAs (o : TxOut) (f : VarintForm) : Bytes :=
  leBytes 8 o.value.toNat ++ f.write o.scriptPubkey.length ++ o.scriptPubkey

theorem read_writeAs {o : TxOut} {f : VarintForm} (hf : f.Holds o.scriptPubkey.length)
    (position : Nat) (rest : Bytes) :
    read ⟨position, o.writeAs f ++ rest⟩ = .ok o ⟨position + (o.writeAs f).length, rest⟩ := by
  simp only [writeAs, List.append_assoc]
  rw [read, run_bind_of_ok (Decoder.u64_read _ _ _), ← List.append_assoc,
    run_bind_of_ok (Decoder.varBytes_write hf _ _)]
  have hvalue : o.value.toNat.toUInt64 = o.value := UInt64.toNat_inj.1 (by simp)
  simp only [hvalue, List.length_append, length_leBytes]
  show EStateM.Result.ok _ _ = _
  congr 2
  omega

theorem read_eq_ok {r r' : Reader} {o : TxOut} (h : read r = .ok o r') :
    ∃ f : VarintForm, f.Holds o.scriptPubkey.length ∧ r.rest = o.writeAs f ++ r'.rest := by
  obtain ⟨value, r₁, h₁, h⟩ := run_bind_eq_ok h
  obtain ⟨scriptPubkey, r₂, h₂, h⟩ := run_bind_eq_ok h
  cases h
  obtain ⟨f, hf, hrest₂⟩ := Decoder.varBytes_eq_ok h₂
  refine ⟨f, hf, ?_⟩
  rw [Decoder.u64_eq_ok h₁, hrest₂]
  simp only [writeAs, List.append_assoc]

theorem writeAs_append_inj {o : TxOut} {f g : VarintForm} {r r' : Bytes}
    (hf : f.Holds o.scriptPubkey.length) (hg : g.Holds o.scriptPubkey.length)
    (h : o.writeAs f ++ r = o.writeAs g ++ r') : f = g ∧ r = r' := by
  simp only [writeAs, List.append_assoc] at h
  obtain ⟨hfg, h⟩ := VarintForm.write_append_inj hf hg (List.append_cancel_left h)
  exact ⟨hfg, List.append_cancel_left h⟩

theorem serialize_eq_writeAs (o : TxOut) (h : o.scriptPubkey.length < 2 ^ 64) :
    o.serialize = o.writeAs (.shortest o.scriptPubkey.length) := by
  rw [serialize, lengthPrefixed, VarintForm.encodeVarint_eq h, writeAs, List.append_assoc]

theorem flatten_writeAs_append_inj {outs : List TxOut} {fs gs : List VarintForm}
    (hf : List.Forall₂ (fun f (o : TxOut) => f.Holds o.scriptPubkey.length) fs outs)
    (hg : List.Forall₂ (fun f (o : TxOut) => f.Holds o.scriptPubkey.length) gs outs) {r r' : Bytes}
    (h : (List.zipWith writeAs outs fs).flatten ++ r = (List.zipWith writeAs outs gs).flatten ++ r') :
    fs = gs ∧ r = r' :=
  @flatten_zipWith_append_inj TxOut VarintForm writeAs (fun f o => f.Holds o.scriptPubkey.length)
    (fun hf hg h => writeAs_append_inj hf hg h) outs fs gs hf hg r r' h

theorem read_times {outs : List TxOut} {fs : List VarintForm}
    (h : List.Forall₂ (fun f (o : TxOut) => f.Holds o.scriptPubkey.length) fs outs)
    (position : Nat) (rest : Bytes) :
    Decoder.times read outs.length ⟨position, (List.zipWith writeAs outs fs).flatten ++ rest⟩ =
      .ok outs ⟨position + (List.zipWith writeAs outs fs).flatten.length, rest⟩ :=
  Decoder.times_zipWith (fun position rest hf => read_writeAs hf position rest) h position rest

end TxOut

namespace Tx

/-- The forms of the VarInts in the bytes of a transaction: of the input count, of each input's
script length, of the output count and of each output's script length. -/
structure Layout where
  /-- The form of the input count. -/
  inputCount : VarintForm
  /-- The form of each input's script length, in order. -/
  scriptSigs : List VarintForm
  /-- The form of the output count. -/
  outputCount : VarintForm
  /-- The form of each output's script length, in order. -/
  scriptPubkeys : List VarintForm
  deriving Repr, DecidableEq

/-- The bytes of a transaction with its VarInts written in the forms of the layout. -/
def writeAs (tx : Tx) (l : Layout) : Bytes :=
  leBytes 4 tx.version.toNat ++ l.inputCount.write tx.inputs.length ++
    (List.zipWith TxIn.writeAs tx.inputs l.scriptSigs).flatten ++
    l.outputCount.write tx.outputs.length ++
    (List.zipWith TxOut.writeAs tx.outputs l.scriptPubkeys).flatten ++ leBytes 4 tx.lockTime.toNat

namespace Layout

/-- Each form of the layout carries its number, one form for each input and each output. -/
def Fits (l : Layout) (tx : Tx) : Prop :=
  l.inputCount.Holds tx.inputs.length ∧
    List.Forall₂ (fun f (i : TxIn) => f.Holds i.scriptSig.length) l.scriptSigs tx.inputs ∧
    l.outputCount.Holds tx.outputs.length ∧
    List.Forall₂ (fun f (o : TxOut) => f.Holds o.scriptPubkey.length) l.scriptPubkeys tx.outputs

def shortest (tx : Tx) : Layout :=
  ⟨.shortest tx.inputs.length, tx.inputs.map fun i => .shortest i.scriptSig.length,
    .shortest tx.outputs.length, tx.outputs.map fun o => .shortest o.scriptPubkey.length⟩

end Layout

/-- Every count and script length of the transaction fits the 64-bit VarInt that carries it on
the wire. -/
def LengthsFit (tx : Tx) : Prop :=
  tx.inputs.length < 2 ^ 64 ∧ (∀ i ∈ tx.inputs, i.scriptSig.length < 2 ^ 64) ∧
    tx.outputs.length < 2 ^ 64 ∧ ∀ o ∈ tx.outputs, o.scriptPubkey.length < 2 ^ 64

theorem Layout.shortest_fits {tx : Tx} (h : tx.LengthsFit) : (Layout.shortest tx).Fits tx := by
  obtain ⟨hin, hins, hout, houts⟩ := h
  refine ⟨VarintForm.holds_shortest hin, ?_, VarintForm.holds_shortest hout, ?_⟩
  · rw [Layout.shortest, List.forall₂_map_left_iff, List.forall₂_same]
    exact fun i hi => VarintForm.holds_shortest (hins i hi)
  · rw [Layout.shortest, List.forall₂_map_left_iff, List.forall₂_same]
    exact fun o ho => VarintForm.holds_shortest (houts o ho)

theorem Layout.Fits.lengthsFit {tx : Tx} {l : Layout} (hl : l.Fits tx) : tx.LengthsFit := by
  obtain ⟨hin, hins, hout, houts⟩ := hl
  exact ⟨hin.lt, forall_lt_of_forall₂ hins, hout.lt, forall_lt_of_forall₂ houts⟩

theorem flatMap_zipIdx_serializeWith (l : List TxIn) (k : Nat)
    (h : ∀ i ∈ l, i.scriptSig.length < 2 ^ 64) :
    (l.zipIdx k).flatMap (fun (input, _) => input.serializeWith input.scriptSig) =
      (List.zipWith TxIn.writeAs l (l.map fun i => .shortest i.scriptSig.length)).flatten := by
  induction l generalizing k with
  | nil => rfl
  | cons i l ih =>
      rw [List.zipIdx_cons, List.flatMap_cons, List.map_cons, List.zipWith_cons_cons,
        List.flatten_cons]
      dsimp only
      rw [TxIn.serializeWith_eq_writeAs i (h i List.mem_cons_self),
        ih (k + 1) (fun j hj => h j (List.mem_cons_of_mem _ hj))]

theorem serialize_eq_writeAs {tx : Tx} (h : tx.LengthsFit) :
    tx.serialize = tx.writeAs (Layout.shortest tx) := by
  obtain ⟨hin, hins, hout, houts⟩ := h
  rw [serialize, serializeWith, writeAs, VarintForm.encodeVarint_eq hin,
    VarintForm.encodeVarint_eq hout, flatMap_zipIdx_serializeWith _ 0 hins]
  simp only [Layout.shortest]
  congr 2
  rw [List.zipWith_map_right, List.zipWith_self, ← List.flatMap_def]
  exact List.flatMap_congr fun o ho => TxOut.serialize_eq_writeAs o (houts o ho)

/-- A transaction is written in one layout only. -/
theorem writeAs_inj {tx : Tx} {l l' : Layout} (hl : l.Fits tx) (hl' : l'.Fits tx)
    (h : tx.writeAs l = tx.writeAs l') : l = l' := by
  obtain ⟨hin, hins, hout, houts⟩ := hl
  obtain ⟨hin', hins', hout', houts'⟩ := hl'
  simp only [writeAs, List.append_assoc] at h
  obtain ⟨h₁, h⟩ := VarintForm.write_append_inj hin hin' (List.append_cancel_left h)
  obtain ⟨h₂, h⟩ := TxIn.flatten_writeAs_append_inj hins hins' h
  obtain ⟨h₃, h⟩ := VarintForm.write_append_inj hout hout' h
  obtain ⟨h₄, -⟩ := TxOut.flatten_writeAs_append_inj houts houts' h
  cases l
  cases l'
  simp only at h₁ h₂ h₃ h₄
  rw [h₁, h₂, h₃, h₄]

theorem read_writeAs {tx : Tx} {l : Layout} (hl : l.Fits tx) (position : Nat) (rest : Bytes) :
    read tx.network ⟨position, tx.writeAs l ++ rest⟩ =
      .ok tx ⟨position + (tx.writeAs l).length, rest⟩ := by
  obtain ⟨hin, hins, hout, houts⟩ := hl
  have hinCount : tx.inputs.length.toUInt64.toNat = tx.inputs.length := by simp; have := hin.lt; omega
  have houtCount : tx.outputs.length.toUInt64.toNat = tx.outputs.length := by
    simp; have := hout.lt; omega
  simp only [writeAs, List.append_assoc]
  rw [read, run_bind_of_ok (Decoder.u32_read _ _ _), run_bind_of_ok (Decoder.varint_write hin _ _),
    hinCount, run_bind_of_ok (TxIn.read_times hins _ _),
    run_bind_of_ok (Decoder.varint_write hout _ _), houtCount, run_bind_of_ok (TxOut.read_times houts _ _),
    run_bind_of_ok (Decoder.u32_read _ _ _)]
  have hversion : tx.version.toNat.toUInt32 = tx.version := UInt32.toNat_inj.1 (by simp)
  have hlock : tx.lockTime.toNat.toUInt32 = tx.lockTime := UInt32.toNat_inj.1 (by simp)
  simp only [hversion, hlock, List.length_append, length_leBytes]
  show EStateM.Result.ok _ _ = _
  congr 2
  omega

theorem parse_writeAs {tx : Tx} {l : Layout} (hl : l.Fits tx) :
    parse (tx.writeAs l) tx.network = .ok tx := by
  have hread := read_writeAs hl 0 []
  rw [List.append_nil, Nat.zero_add] at hread
  apply Decoder.parse_of_run
  rw [Reader.ofBytes, run_bind_of_ok hread, run_bind_of_ok (Decoder.reader_run _)]
  rfl

/-- The bytes a transaction reads from are it, written in a layout that fits it. -/
theorem read_eq_ok {network : Network} {r r' : Reader} {tx : Tx} (h : read network r = .ok tx r') :
    tx.network = network ∧ ∃ l : Layout, l.Fits tx ∧ r.rest = tx.writeAs l ++ r'.rest := by
  obtain ⟨version, r₁, h₁, h⟩ := run_bind_eq_ok h
  obtain ⟨inputCount, r₂, h₂, h⟩ := run_bind_eq_ok h
  obtain ⟨inputs, r₃, h₃, h⟩ := run_bind_eq_ok h
  obtain ⟨outputCount, r₄, h₄, h⟩ := run_bind_eq_ok h
  obtain ⟨outputs, r₅, h₅, h⟩ := run_bind_eq_ok h
  obtain ⟨lockTime, r₆, h₆, h⟩ := run_bind_eq_ok h
  cases h
  obtain ⟨fin, hfin, hrest₂⟩ := Decoder.varint_eq_ok h₂
  obtain ⟨hinLen, fins, hfins, hrest₃⟩ := Decoder.times_eq_ok TxIn.read_eq_ok h₃
  obtain ⟨fout, hfout, hrest₄⟩ := Decoder.varint_eq_ok h₄
  obtain ⟨houtLen, fouts, hfouts, hrest₅⟩ := Decoder.times_eq_ok TxOut.read_eq_ok h₅
  refine ⟨rfl, ⟨fin, fins, fout, fouts⟩, ⟨hinLen ▸ hfin, hfins, houtLen ▸ hfout, hfouts⟩, ?_⟩
  rw [Decoder.u32_eq_ok h₁, hrest₂, hrest₃, hrest₄, hrest₅, Decoder.u32_eq_ok h₆, ← hinLen, ← houtLen]
  simp only [writeAs, List.append_assoc]

theorem parse_eq_ok {b : Bytes} {network : Network} {tx : Tx} (h : parse b network = .ok tx) :
    tx.network = network ∧ ∃ l : Layout, l.Fits tx ∧ b = tx.writeAs l := by
  obtain ⟨r, hrun⟩ := Decoder.run_of_parse h
  obtain ⟨tx', r₁, hread, h⟩ := run_bind_eq_ok hrun
  obtain ⟨hnet, l, hl, hrest⟩ := read_eq_ok hread
  obtain ⟨r₂, _, hget, h⟩ := run_bind_eq_ok h
  cases hget
  -- the reader must be finished, so no byte is left after the transaction
  dsimp only at h
  split at h
  · obtain ⟨_, _, hthrow, -⟩ := run_bind_eq_ok h
    cases hthrow
  · rename_i hfin
    have hnil : r₁.rest = [] := by simpa [Reader.finished] using hfin
    rw [hnil, List.append_nil] at hrest
    cases h
    exact ⟨hnet, l, hl, hrest⟩

/-- A transaction whose counts and script lengths fit their VarInts reads back from its bytes. -/
theorem parse_serialize (tx : Tx) (h : tx.LengthsFit) : parse tx.serialize tx.network = .ok tx := by
  rw [serialize_eq_writeAs h]
  exact parse_writeAs (Layout.shortest_fits h)

/-- A one-input, one-output transaction reads back from its bytes. -/
theorem parse_serialize_spend :
    (⟨1, [⟨FixedBytes.zero 32, 0, [0x51], 0xffffffff⟩], [⟨5000, [0x51]⟩], 0, .mainnet⟩ : Tx).LengthsFit ∧
      parse (⟨1, [⟨FixedBytes.zero 32, 0, [0x51], 0xffffffff⟩], [⟨5000, [0x51]⟩], 0, .mainnet⟩ : Tx).serialize
          .mainnet = .ok ⟨1, [⟨FixedBytes.zero 32, 0, [0x51], 0xffffffff⟩], [⟨5000, [0x51]⟩], 0, .mainnet⟩ := by
  have h : (⟨1, [⟨FixedBytes.zero 32, 0, [0x51], 0xffffffff⟩], [⟨5000, [0x51]⟩], 0, .mainnet⟩ :
      Tx).LengthsFit := by
    simp [LengthsFit]
  exact ⟨h, parse_serialize _ h⟩

/-- The bytes a transaction is read from are the transaction written with a form for each VarInt
that carries its number. Writing the transaction again gives those bytes back exactly when every
form is the shortest; then its hash is the hash of the bytes received, and a store files it under
that hash. -/
theorem reserialize_eq_iff_shortest [Digests] {b : Bytes} {network : Network} {tx : Tx}
    (h : parse b network = .ok tx) :
    ∃ l : Layout, l.Fits tx ∧ b = tx.writeAs l ∧ (tx.serialize = b ↔ l = Layout.shortest tx) ∧
      (l = Layout.shortest tx → tx.hash = Hash.hash256Reversed b ∧
        ∀ s : TxStore, s.insert tx = s.insertWithId (Hash.hash256Reversed b) tx) := by
  obtain ⟨-, l, hl, rfl⟩ := parse_eq_ok h
  have hfit := hl.lengthsFit
  have hiff : tx.serialize = tx.writeAs l ↔ l = Layout.shortest tx := by
    rw [serialize_eq_writeAs hfit]
    constructor
    · intro he
      exact (writeAs_inj (Layout.shortest_fits hfit) hl he).symm
    · rintro rfl
      rfl
  refine ⟨l, hl, rfl, hiff, fun hs => ?_⟩
  have hser := hiff.2 hs
  exact ⟨by rw [hash, hser], fun s => by rw [TxStore.insert, hash, hser]⟩

/-- An input count of zero written in three bytes is read, and written back in one. -/
theorem parse_wide_input_count :
    parse [0x01, 0, 0, 0, 0xfd, 0, 0, 0, 0, 0, 0, 0] .mainnet = .ok ⟨1, [], [], 0, .mainnet⟩ ∧
      (⟨1, [], [], 0, .mainnet⟩ : Tx).serialize ≠ [0x01, 0, 0, 0, 0xfd, 0, 0, 0, 0, 0, 0, 0] := by
  refine ⟨rfl, ?_⟩
  decide

/-- The bytes of the empty transaction with its input count written in three bytes. -/
theorem reserialize_eq_iff_shortest_wide :
    parse [0x01, 0, 0, 0, 0xfd, 0, 0, 0, 0, 0, 0, 0] .mainnet = .ok ⟨1, [], [], 0, .mainnet⟩ ∧
      ∃ l : Layout, l.Fits ⟨1, [], [], 0, .mainnet⟩ ∧
        [0x01, 0, 0, 0, 0xfd, 0, 0, 0, 0, 0, 0, 0] = (⟨1, [], [], 0, .mainnet⟩ : Tx).writeAs l ∧
        ((⟨1, [], [], 0, .mainnet⟩ : Tx).serialize = [0x01, 0, 0, 0, 0xfd, 0, 0, 0, 0, 0, 0, 0] ↔
          l = Layout.shortest ⟨1, [], [], 0, .mainnet⟩) ∧
        (l = Layout.shortest ⟨1, [], [], 0, .mainnet⟩ →
          (⟨1, [], [], 0, .mainnet⟩ : Tx).hash =
              Hash.hash256Reversed [0x01, 0, 0, 0, 0xfd, 0, 0, 0, 0, 0, 0, 0] ∧
            ∀ s : TxStore, s.insert ⟨1, [], [], 0, .mainnet⟩ =
              s.insertWithId (Hash.hash256Reversed [0x01, 0, 0, 0, 0xfd, 0, 0, 0, 0, 0, 0, 0])
                ⟨1, [], [], 0, .mainnet⟩) := by
  have h : parse [0x01, 0, 0, 0, 0xfd, 0, 0, 0, 0, 0, 0, 0] .mainnet =
      .ok ⟨1, [], [], 0, .mainnet⟩ := rfl
  exact ⟨h, reserialize_eq_iff_shortest h⟩

end Tx

end Bitcoin
