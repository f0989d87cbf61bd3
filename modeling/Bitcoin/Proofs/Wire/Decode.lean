import Bitcoin.Wire.Reader
import Bitcoin.Proofs.Bytes

/-! # Running decoders on known bytes

When the bytes in front of the reader are known, each primitive read returns them and moves past
them, so decoders built from reads and binds are followed read by read; every VarInt reads back as
its number, and no VarInt is a prefix of another. Conversely a read that succeeds consumed exactly
the bytes of its value, so what a decoder accepted is recovered from the value.
-/

namespace Bitcoin

section Run

variable {ε σ α β : Type} {x y : EStateM ε σ α} {s t s' : σ} {a : α}

theorem run_bind_of_ok {f : α → EStateM ε σ β} (h : x s = .ok a s') : (x >>= f) s = f a s' := by
  show EStateM.bind x f s = _
  rw [EStateM.bind, h]

theorem run_bind_of_error {f : α → EStateM ε σ β} {e : ε} (h : x s = .error e s') :
    (x >>= f) s = .error e s' := by
  show EStateM.bind x f s = _
  rw [EStateM.bind, h]

theorem run_map_of_ok {f : α → β} (h : x s = .ok a s') : (f <$> x) s = .ok (f a) s' := by
  show EStateM.map f x s = _
  rw [EStateM.map, h]

theorem run_bind_eq_ok {f : α → EStateM ε σ β} {b : β} {s'' : σ} (h : (x >>= f) s = .ok b s'') :
    ∃ a s', x s = .ok a s' ∧ f a s' = .ok b s'' := by
  change EStateM.bind x f s = _ at h
  unfold EStateM.bind at h
  split at h
  · exact ⟨_, _, ‹_›, h⟩
  · cases h

theorem run_map_of_error {f : α → β} {e : ε} (h : x s = .error e s') :
    (f <$> x) s = .error e s' := by
  show EStateM.map f x s = _
  rw [EStateM.map, h]

theorem run_map_eq_of_run_eq {f : α → β} (h : x s = y t) : (f <$> x) s = (f <$> y) t := by
  show EStateM.map f x s = EStateM.map f y t
  simp only [EStateM.map, h]

theorem run_map_eq_ok {f : α → β} {b : β} (h : (f <$> x) s = .ok b s') :
    ∃ a, x s = .ok a s' ∧ b = f a := by
  change EStateM.map f x s = _ at h
  unfold EStateM.map at h
  split at h
  · cases h
    exact ⟨_, ‹_›, rfl⟩
  · cases h

end Run

@[simp] theorem except_ok_bind {ε α β : Type} (a : α) (f : α → Except ε β) :
    (Except.ok a >>= f) = f a := rfl

namespace Decoder

theorem reader_run (r : Reader) : reader r = .ok r r := rfl

theorem slice_run (position : Nat) (bs rest : Bytes) :
    slice bs.length ⟨position, bs ++ rest⟩ = .ok bs ⟨position + bs.length, rest⟩ := by
  simp [slice, fixed, bind, EStateM.bind, get, getThe, MonadStateOf.get, EStateM.get, set,
    EStateM.set, pure, EStateM.pure, Reader.remaining]

theorem u8_run (position : Nat) (b : UInt8) (rest : Bytes) :
    u8 ⟨position, b :: rest⟩ = .ok b ⟨position + 1, rest⟩ := by
  have h := slice_run position [b] rest
  rw [List.length_singleton, List.singleton_append] at h
  rw [u8, run_bind_of_ok h]
  simp [pure, EStateM.pure, Bytes.toNatLE]

theorem u16_read (position n : Nat) (rest : Bytes) :
    u16 ⟨position, leBytes 2 n ++ rest⟩ = .ok n.toUInt16 ⟨position + 2, rest⟩ := by
  have h := slice_run position (leBytes 2 n) rest
  rw [length_leBytes] at h
  have hcut : (n % 256 ^ 2).toUInt16 = n.toUInt16 := UInt16.toNat_inj.1 (by simp)
  rw [u16, run_bind_of_ok h, toNatLE_leBytes, hcut]
  rfl

theorem u32_read (position n : Nat) (rest : Bytes) :
    u32 ⟨position, leBytes 4 n ++ rest⟩ = .ok n.toUInt32 ⟨position + 4, rest⟩ := by
  have h := slice_run position (leBytes 4 n) rest
  rw [length_leBytes] at h
  have hcut : (n % 256 ^ 4).toUInt32 = n.toUInt32 := UInt32.toNat_inj.1 (by simp)
  rw [u32, run_bind_of_ok h, toNatLE_leBytes, hcut]
  rfl

theorem u64_read (position n : Nat) (rest : Bytes) :
    u64 ⟨position, leBytes 8 n ++ rest⟩ = .ok n.toUInt64 ⟨position + 8, rest⟩ := by
  have h := slice_run position (leBytes 8 n) rest
  rw [length_leBytes] at h
  have hcut : (n % 256 ^ 8).toUInt64 = n.toUInt64 := UInt64.toNat_inj.1 (by simp)
  rw [u64, run_bind_of_ok h, toNatLE_leBytes, hcut]
  rfl

theorem u16_run (position n : Nat) (rest : Bytes) (hn : n < 2 ^ 16) :
    (UInt16.toNat <$> u16) ⟨position, leBytes 2 n ++ rest⟩ = .ok n ⟨position + 2, rest⟩ := by
  rw [run_map_of_ok (u16_read position n rest), Nat.toUInt16_eq, UInt16.toNat_ofNat',
    Nat.mod_eq_of_lt hn]

theorem u32_run (position n : Nat) (rest : Bytes) (hn : n < 2 ^ 32) :
    (UInt32.toNat <$> u32) ⟨position, leBytes 4 n ++ rest⟩ = .ok n ⟨position + 4, rest⟩ := by
  rw [run_map_of_ok (u32_read position n rest), Nat.toUInt32_eq, UInt32.toNat_ofNat',
    Nat.mod_eq_of_lt hn]

/-- A VarInt reads back as the number it encodes, in each of its four widths. -/
theorem varint_run (position : Nat) (n : UInt64) (rest : Bytes) :
    varint ⟨position, encodeVarint n ++ rest⟩ =
      .ok n ⟨position + (encodeVarint n).length, rest⟩ := by
  unfold encodeVarint
  split_ifs with h1 h2 h3 <;> rw [UInt64.le_iff_toNat_le] at *
  · -- a single byte, below the three markers
    have hlow : n.toUInt8.toNat ≤ 252 := by simp at h1 ⊢; omega
    have hb : n.toUInt8.toUInt64 = n := UInt64.toNat_inj.1 (by simp at h1 ⊢; omega)
    rw [List.singleton_append, varint, run_bind_of_ok (u8_run _ _ _),
      if_neg (fun h => by rw [h] at hlow; contradiction),
      if_neg (fun h => by rw [h] at hlow; contradiction),
      if_neg (fun h => by rw [h] at hlow; contradiction), hb]
    rfl
  · have hv : n.toNat.toUInt16.toUInt64 = n :=
      UInt64.toNat_inj.1 (by simp at h2 ⊢; omega)
    rw [List.cons_append, varint, run_bind_of_ok (u8_run _ _ _), if_pos rfl,
      run_bind_of_ok (u16_read _ _ _), hv]
    rfl
  · have hv : n.toNat.toUInt32.toUInt64 = n :=
      UInt64.toNat_inj.1 (by simp at h3 ⊢; omega)
    rw [List.cons_append, varint, run_bind_of_ok (u8_run _ _ _), if_neg (by decide), if_pos rfl,
      run_bind_of_ok (u32_read _ _ _), hv]
    rfl
  · have hv : n.toNat.toUInt64 = n := UInt64.toNat_inj.1 (by simp)
    rw [List.cons_append, varint, run_bind_of_ok (u8_run _ _ _), if_neg (by decide),
      if_neg (by decide), if_pos rfl, u64_read, hv]
    rfl

theorem parse_of_run {d : Decoder α} {data : Bytes} {a : α} {r : Reader}
    (h : d (Reader.ofBytes data) = .ok a r) : d.parse data = .ok a := by
  simp only [parse, runOn, EStateM.run, h]

theorem run_of_parse {d : Decoder α} {data : Bytes} {a : α} (h : d.parse data = .ok a) :
    ∃ r, d (Reader.ofBytes data) = .ok a r := by
  simp only [parse, runOn, EStateM.run] at h
  split at h
  · cases h
    exact ⟨_, ‹_›⟩
  · cases h

theorem fixed_run {n : Nat} (v : FixedBytes n) (position : Nat) (rest : Bytes) :
    fixed n ⟨position, v.toList ++ rest⟩ = .ok v ⟨position + v.toList.length, rest⟩ := by
  obtain ⟨bs, rfl⟩ := v
  simp [fixed, bind, EStateM.bind, get, getThe, MonadStateOf.get, EStateM.get, set, EStateM.set,
    pure, EStateM.pure, Reader.remaining]

theorem fixed_eq_ok {n : Nat} {r r' : Reader} {v : FixedBytes n} (h : fixed n r = .ok v r') :
    r.rest = v.toList ++ r'.rest := by
  obtain ⟨r₀, _, hget, h⟩ := run_bind_eq_ok h
  cases hget
  split at h
  · obtain ⟨_, _, hset, h⟩ := run_bind_eq_ok h
    cases hset
    cases h
    exact (List.take_append_drop n _).symm
  · cases h

theorem slice_eq_ok {n : Nat} {r r' : Reader} {bs : Bytes} (h : slice n r = .ok bs r') :
    bs.length = n ∧ r.rest = bs ++ r'.rest := by
  obtain ⟨v, _, hv, h⟩ := run_bind_eq_ok h
  cases h
  exact ⟨v.length_toList, fixed_eq_ok hv⟩

theorem u8_eq_ok {r r' : Reader} {b : UInt8} (h : u8 r = .ok b r') : r.rest = b :: r'.rest := by
  obtain ⟨bs, _, hbs, h⟩ := run_bind_eq_ok h
  cases h
  obtain ⟨hlen, hrest⟩ := slice_eq_ok hbs
  obtain ⟨c, rfl⟩ := List.length_eq_one_iff.1 hlen
  have hc : (Bytes.toNatLE [c]).toUInt8 = c := UInt8.toNat_inj.1 (by simp [Bytes.toNatLE])
  rw [hrest, hc, List.singleton_append]

theorem u16_eq_ok {r r' : Reader} {v : UInt16} (h : u16 r = .ok v r') :
    r.rest = leBytes 2 v.toNat ++ r'.rest := by
  obtain ⟨bs, _, hbs, h⟩ := run_bind_eq_ok h
  cases h
  obtain ⟨hlen, hrest⟩ := slice_eq_ok hbs
  have hlt := toNatLE_lt bs
  rw [hlen] at hlt
  rw [hrest, show (Bytes.toNatLE bs).toUInt16.toNat = Bytes.toNatLE bs by simp; omega, ← hlen,
    leBytes_toNatLE]

theorem u32_eq_ok {r r' : Reader} {v : UInt32} (h : u32 r = .ok v r') :
    r.rest = leBytes 4 v.toNat ++ r'.rest := by
  obtain ⟨bs, _, hbs, h⟩ := run_bind_eq_ok h
  cases h
  obtain ⟨hlen, hrest⟩ := slice_eq_ok hbs
  have hlt := toNatLE_lt bs
  rw [hlen] at hlt
  rw [hrest, show (Bytes.toNatLE bs).toUInt32.toNat = Bytes.toNatLE bs by simp; omega, ← hlen,
    leBytes_toNatLE]

theorem u64_eq_ok {r r' : Reader} {v : UInt64} (h : u64 r = .ok v r') :
    r.rest = leBytes 8 v.toNat ++ r'.rest := by
  obtain ⟨bs, _, hbs, h⟩ := run_bind_eq_ok h
  cases h
  obtain ⟨hlen, hrest⟩ := slice_eq_ok hbs
  have hlt := toNatLE_lt bs
  rw [hlen] at hlt
  rw [hrest, show (Bytes.toNatLE bs).toUInt64.toNat = Bytes.toNatLE bs by simp; omega, ← hlen,
    leBytes_toNatLE]

theorem hashReversed_eq_ok {r r' : Reader} {h : FixedBytes 32} (hread : hashReversed r = .ok h r') :
    r.rest = h.reverse.toList ++ r'.rest := by
  obtain ⟨v, _, hv, hread⟩ := run_bind_eq_ok hread
  cases hread
  rw [fixed_eq_ok hv]
  simp [FixedBytes.reverse]

theorem hashReversed_run (h : FixedBytes 32) (position : Nat) (rest : Bytes) :
    hashReversed ⟨position, h.reverse.toList ++ rest⟩ = .ok h ⟨position + 32, rest⟩ := by
  obtain ⟨bs, hbs⟩ := h
  simp [hbs, hashReversed, fixed, bind, EStateM.bind, get, getThe, MonadStateOf.get, EStateM.get, set,
    EStateM.set, pure, EStateM.pure, Reader.remaining, FixedBytes.reverse]

theorem times_zipWith {α β : Type} {d : Decoder α} {w : α → β → Bytes} {P : β → α → Prop}
    (hd : ∀ {f x} (position : Nat) (rest : Bytes), P f x →
      d ⟨position, w x f ++ rest⟩ = .ok x ⟨position + (w x f).length, rest⟩)
    {fs : List β} {xs : List α} (h : List.Forall₂ P fs xs) (position : Nat) (rest : Bytes) :
    times d xs.length ⟨position, (List.zipWith w xs fs).flatten ++ rest⟩ =
      .ok xs ⟨position + (List.zipWith w xs fs).flatten.length, rest⟩ := by
  induction h generalizing position with
  | nil => rfl
  | @cons f x fs xs hfx _ ih =>
      rw [List.length_cons, List.zipWith_cons_cons, List.flatten_cons, List.append_assoc, times,
        run_bind_of_ok (hd position _ hfx), run_bind_of_ok (ih _)]
      simp only [List.length_append, Nat.add_assoc]
      rfl

theorem times_eq_ok {α β : Type} {d : Decoder α} {w : α → β → Bytes} {P : β → α → Prop}
    (hd : ∀ {r r' : Reader} {x : α}, d r = .ok x r' → ∃ f, P f x ∧ r.rest = w x f ++ r'.rest)
    {n : Nat} {r r' : Reader} {xs : List α} (h : times d n r = .ok xs r') :
    xs.length = n ∧ ∃ fs, List.Forall₂ P fs xs ∧ r.rest = (List.zipWith w xs fs).flatten ++ r'.rest := by
  induction n generalizing r xs with
  | zero =>
      cases h
      exact ⟨rfl, [], .nil, rfl⟩
  | succ n ih =>
      obtain ⟨x, r₁, hx, h⟩ := run_bind_eq_ok h
      obtain ⟨xs', r₂, hxs, h⟩ := run_bind_eq_ok h
      cases h
      obtain ⟨f, hf, hrest⟩ := hd hx
      obtain ⟨hlen, fs, hfs, hrest'⟩ := ih hxs
      refine ⟨by rw [List.length_cons, hlen], f :: fs, .cons hf hfs, ?_⟩
      rw [List.zipWith_cons_cons, List.flatten_cons, List.append_assoc, hrest, hrest']

end Decoder

/-- No VarInt is a proper prefix of another: equal bytes that start with two VarInts start with
the same one. -/
theorem encodeVarint_append_inj {a b : UInt64} {r r' : Bytes}
    (h : encodeVarint a ++ r = encodeVarint b ++ r') : a = b ∧ r = r' := by
  have hread := Decoder.varint_run 0 a r
  rw [h, Decoder.varint_run] at hread
  injection hread with hab hrest
  exact ⟨hab.symm, (Reader.mk.inj hrest).2.symm⟩

end Bitcoin
