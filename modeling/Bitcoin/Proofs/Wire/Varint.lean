import Bitcoin.Proofs.Wire.Decode

/-! # VarInts in each of their forms

A VarInt is written in one of four forms: a single byte below the markers, or a marker `fd`, `fe`
or `ff` followed by two, four or eight little-endian bytes. Writing always picks the shortest form
that carries the number; reading accepts every form that carries it. A number reads back from
each of its forms, the bytes a VarInt read consumed are its number in one of them, and the first
byte tells the forms apart.
-/

namespace Bitcoin

/-- The forms of a VarInt on the wire. -/
inductive VarintForm where
  /-- A single byte below `fd`. -/
  | byte
  /-- `fd` and two little-endian bytes. -/
  | two
  /-- `fe` and four little-endian bytes. -/
  | four
  /-- `ff` and eight little-endian bytes. -/
  | eight
  deriving Repr, DecidableEq

namespace VarintForm

def write : VarintForm → Nat → Bytes
  | byte, n => [n.toUInt8]
  | two, n => 0xfd :: leBytes 2 n
  | four, n => 0xfe :: leBytes 4 n
  | eight, n => 0xff :: leBytes 8 n

/-- Whether the form carries `n`: a single byte below the markers, the others within their
widths. -/
def Holds : VarintForm → Nat → Prop
  | byte, n => n < 0xfd
  | two, n => n < 2 ^ 16
  | four, n => n < 2 ^ 32
  | eight, n => n < 2 ^ 64

/-- The shortest form that carries `n`, the one `encodeVarint` writes. -/
def shortest (n : Nat) : VarintForm :=
  if n < 0xfd then byte else if n < 2 ^ 16 then two else if n < 2 ^ 32 then four else eight

theorem Holds.lt {f : VarintForm} {n : Nat} (h : f.Holds n) : n < 2 ^ 64 := by
  cases f <;> simp only [Holds] at h <;> omega

theorem holds_shortest {n : Nat} (h : n < 2 ^ 64) : (shortest n).Holds n := by
  unfold shortest
  split_ifs <;> simp only [Holds] <;> omega

theorem encodeVarint_eq {n : Nat} (h : n < 2 ^ 64) :
    encodeVarint n.toUInt64 = (shortest n).write n := by
  have hn : n.toUInt64.toNat = n := by simp; omega
  unfold encodeVarint shortest
  simp only [UInt64.le_iff_toNat_le, hn, UInt64.reduceToNat]
  -- the thresholds of the two definitions agree, one range at a time
  rcases Nat.lt_or_ge n 0xfd with h1 | h1
  · rw [if_pos (by omega), if_pos h1, write]
    exact congrArg (· :: []) (UInt8.toNat_inj.1 (by simp))
  rcases Nat.lt_or_ge n (2 ^ 16) with h2 | h2
  · rw [if_neg (by omega), if_pos (by omega), if_neg (by omega), if_pos h2, write]
  rcases Nat.lt_or_ge n (2 ^ 32) with h3 | h3
  · rw [if_neg (by omega), if_neg (by omega), if_pos (by omega), if_neg (by omega), if_neg (by omega),
      if_pos h3, write]
  · rw [if_neg (by omega), if_neg (by omega), if_neg (by omega), if_neg (by omega), if_neg (by omega),
      if_neg (by omega), write]

/-- The first byte tells the forms apart, so a number written in two forms that carry it starts
two byte strings alike only in one form. -/
theorem write_append_inj {f g : VarintForm} {n : Nat} {r r' : Bytes} (hf : f.Holds n)
    (hg : g.Holds n) (h : f.write n ++ r = g.write n ++ r') : f = g ∧ r = r' := by
  have hbyte : ∀ m : UInt8, 0xfd ≤ m.toNat → n < 0xfd → n.toUInt8 ≠ m := fun m hm hn he => by
    have : n.toUInt8.toNat = n := by simp; omega
    rw [he] at this
    omega
  cases f <;> cases g <;> simp only [Holds] at hf hg <;>
    simp only [write, List.cons_append, List.cons.injEq] at h
  case byte.byte => exact ⟨rfl, h.2⟩
  case two.two | four.four | eight.eight => exact ⟨rfl, List.append_cancel_left h.2⟩
  -- a single byte lies below the markers, and the three markers differ
  case byte.two | byte.four | byte.eight => exact absurd h.1 (hbyte _ (by decide) hf)
  case two.byte | four.byte | eight.byte => exact absurd h.1.symm (hbyte _ (by decide) hg)
  all_goals exact absurd h.1 (by decide)

end VarintForm

theorem length_encodeVarint (n : UInt64) :
    (encodeVarint n).length =
      (if n ≤ 0xfc then 1 else if n ≤ 0xffff then 3 else if n ≤ 0xffffffff then 5 else 9) := by
  unfold encodeVarint
  split_ifs <;> simp only [List.length_cons, List.length_nil, length_leBytes]

namespace Decoder

open VarintForm in
theorem varint_write {f : VarintForm} {n : Nat} (hf : f.Holds n) (position : Nat) (rest : Bytes) :
    varint ⟨position, f.write n ++ rest⟩ = .ok n.toUInt64 ⟨position + (f.write n).length, rest⟩ := by
  cases f with
  | byte =>
      simp only [Holds] at hf
      have hb : n.toUInt8.toNat = n := by simp; omega
      have hne : ∀ m : UInt8, m.toNat ≠ n → n.toUInt8 ≠ m := fun m hm h => hm (h ▸ hb)
      rw [write, List.singleton_append, varint, run_bind_of_ok (u8_run _ _ _),
        if_neg (hne 0xfd (by simp; omega)), if_neg (hne 0xfe (by simp; omega)),
        if_neg (hne 0xff (by simp; omega))]
      show EStateM.Result.ok _ _ = _
      congr 1
      exact UInt64.toNat_inj.1 (by simp; omega)
  | two =>
      simp only [Holds] at hf
      rw [write, List.cons_append, varint, run_bind_of_ok (u8_run _ _ _), if_pos rfl,
        run_bind_of_ok (u16_read _ _ _)]
      show EStateM.Result.ok _ _ = _
      congr 1
      exact UInt64.toNat_inj.1 (by simp; omega)
  | four =>
      simp only [Holds] at hf
      rw [write, List.cons_append, varint, run_bind_of_ok (u8_run _ _ _), if_neg (by decide),
        if_pos rfl, run_bind_of_ok (u32_read _ _ _)]
      show EStateM.Result.ok _ _ = _
      congr 1
      exact UInt64.toNat_inj.1 (by simp; omega)
  | eight =>
      rw [write, List.cons_append, varint, run_bind_of_ok (u8_run _ _ _), if_neg (by decide),
        if_neg (by decide), if_pos rfl, u64_read]
      simp only [List.length_cons, length_leBytes]

open VarintForm in
theorem varint_eq_ok {r r' : Reader} {v : UInt64} (h : varint r = .ok v r') :
    ∃ f : VarintForm, f.Holds v.toNat ∧ r.rest = f.write v.toNat ++ r'.rest := by
  obtain ⟨b, r₁, hb, h⟩ := run_bind_eq_ok h
  have hrest₁ := u8_eq_ok hb
  split_ifs at h with h1 h2 h3
  · obtain ⟨x, _, hx, h⟩ := run_bind_eq_ok h
    cases h
    refine ⟨two, by simpa [Holds] using x.toNat_lt, ?_⟩
    rw [hrest₁, u16_eq_ok hx, h1, write]
    simp
  · obtain ⟨x, _, hx, h⟩ := run_bind_eq_ok h
    cases h
    refine ⟨four, by simpa [Holds] using x.toNat_lt, ?_⟩
    rw [hrest₁, u32_eq_ok hx, h2, write]
    simp
  · refine ⟨eight, by simpa [Holds] using v.toNat_lt, ?_⟩
    rw [hrest₁, u64_eq_ok h, h3, write]
    rfl
  · cases h
    have hlow : b.toNat < 0xfd := by
      simp only [← UInt8.toNat_inj, UInt8.reduceToNat] at h1 h2 h3
      have := b.toNat_lt
      omega
    refine ⟨byte, by simpa [Holds] using hlow, ?_⟩
    rw [hrest₁, write]
    simp

theorem length_write {f : VarintForm} {n : Nat} (hf : f.Holds n) (position : Nat) {rest : Bytes}
    (hn : n ≤ rest.length) :
    length ⟨position, f.write n ++ rest⟩ = .ok n ⟨position + (f.write n).length, rest⟩ := by
  have hv : n.toUInt64.toNat = n := by simp; have := hf.lt; omega
  have hfits : ¬n > (Reader.mk (position + (f.write n).length) rest).remaining := by
    simp only [Reader.remaining]
    omega
  rw [length, run_bind_of_ok (varint_write hf position rest)]
  simp only [bind, EStateM.bind, get, getThe, MonadStateOf.get, EStateM.get, hv, if_neg hfits]
  rfl

theorem varBytes_write {f : VarintForm} {bs : Bytes} (hf : f.Holds bs.length) (position : Nat)
    (rest : Bytes) :
    varBytes ⟨position, f.write bs.length ++ bs ++ rest⟩ =
      .ok bs ⟨position + (f.write bs.length).length + bs.length, rest⟩ := by
  rw [varBytes, List.append_assoc,
    run_bind_of_ok (length_write hf position (by rw [List.length_append]; omega)), slice_run]

theorem length_eq_ok {r r' : Reader} {n : Nat} (h : length r = .ok n r') :
    ∃ f : VarintForm, f.Holds n ∧ n ≤ r'.rest.length ∧ r.rest = f.write n ++ r'.rest := by
  obtain ⟨v, r₁, hv, h⟩ := run_bind_eq_ok h
  obtain ⟨r₂, _, hget, h⟩ := run_bind_eq_ok h
  cases hget
  split at h
  · cases h
  · cases h
    obtain ⟨f, hf, hrest⟩ := varint_eq_ok hv
    refine ⟨f, hf, ?_, hrest⟩
    simp only [Reader.remaining] at *
    omega

theorem varBytes_eq_ok {r r' : Reader} {bs : Bytes} (h : varBytes r = .ok bs r') :
    ∃ f : VarintForm, f.Holds bs.length ∧ r.rest = f.write bs.length ++ bs ++ r'.rest := by
  obtain ⟨n, r₁, hn, h⟩ := run_bind_eq_ok h
  obtain ⟨f, hf, -, hrest⟩ := length_eq_ok hn
  obtain ⟨hlen, hrest'⟩ := slice_eq_ok h
  subst hlen
  exact ⟨f, hf, by rw [hrest, hrest', List.append_assoc]⟩

/-- A byte string behind its shortest VarInt length reads back whole, and the reader stops right
after it. -/
theorem varBytes_lengthPrefixed {bs : Bytes} (h : bs.length < 2 ^ 64) (position : Nat)
    (rest : Bytes) :
    varBytes ⟨position, lengthPrefixed bs ++ rest⟩ =
      .ok bs ⟨position + (lengthPrefixed bs).length, rest⟩ := by
  have hread := varBytes_write (VarintForm.holds_shortest h) position rest
  rw [← VarintForm.encodeVarint_eq h] at hread
  rw [lengthPrefixed, hread, List.length_append, Nat.add_assoc]

/-- A VarInt reads back from the start of any bytes that begin with it, leaving the reader right
after its 1, 3, 5 or 9 bytes, and a byte string behind its VarInt length reads back whole. -/
theorem varint_varBytes_roundtrip (n : UInt64) (d rest : Bytes) (hd : d.length < 2 ^ 64) :
    varint (Reader.ofBytes (encodeVarint n ++ rest)) = .ok n ⟨(encodeVarint n).length, rest⟩ ∧
      (encodeVarint n).length =
        (if n ≤ 0xfc then 1 else if n ≤ 0xffff then 3 else if n ≤ 0xffffffff then 5 else 9) ∧
      varBytes (Reader.ofBytes (encodeVarint d.length.toUInt64 ++ d ++ rest)) =
        .ok d ⟨(encodeVarint d.length.toUInt64).length + d.length, rest⟩ := by
  refine ⟨?_, length_encodeVarint n, ?_⟩
  · rw [Reader.ofBytes, varint_run, Nat.zero_add]
  · have hread := varBytes_lengthPrefixed hd 0 rest
    rw [lengthPrefixed, List.length_append, Nat.zero_add] at hread
    exact hread

/-- The boundary lengths: `0x10000` takes the four-byte form, read back from a reader at the
start of the bytes, and a three-byte string follows its one-byte length. -/
theorem varint_varBytes_roundtrip_boundary :
    [(1 : UInt8), 2, 3].length < 2 ^ 64 ∧
      (varint (Reader.ofBytes (encodeVarint 0x10000 ++ [7])) = .ok 0x10000 ⟨5, [7]⟩ ∧
        (encodeVarint 0x10000).length = 5 ∧
        varBytes (Reader.ofBytes (encodeVarint 3 ++ [1, 2, 3] ++ [7])) = .ok [1, 2, 3] ⟨4, [7]⟩) := by
  have hd : [(1 : UInt8), 2, 3].length < 2 ^ 64 := by decide
  have h := varint_varBytes_roundtrip 0x10000 [1, 2, 3] [7] hd
  refine ⟨hd, h.1, ?_, h.2.2⟩
  rw [h.2.1]
  decide

end Decoder

theorem forall_lt_of_forall₂ {α : Type} {len : α → Nat} {fs : List VarintForm} {xs : List α}
    (h : List.Forall₂ (fun f x => f.Holds (len x)) fs xs) : ∀ x ∈ xs, len x < 2 ^ 64 := by
  induction h with
  | nil => simp
  | cons hfx _ ih =>
      intro y hy
      rcases List.mem_cons.1 hy with rfl | hy
      · exact hfx.lt
      · exact ih y hy

end Bitcoin
