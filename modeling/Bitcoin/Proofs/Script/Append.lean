import Bitcoin.Proofs.Script.Decode

/-! # Decoding scripts placed one after the other

A read that succeeds depends only on the bytes it consumed: the same bytes followed by anything
else, at any position, read the same value (`Decoder.ReadsPrefix`). Every read that splits script
bytes into operations is of this kind, so no operation of a script that decodes runs past its
end. Decoding the bytes of two scripts placed one after the other therefore reads the operations
of the first, then decodes the second on its own: the operations of both in order when the second
decodes, and an error when it does not.
-/

namespace Bitcoin

namespace Decoder

variable {α β : Type}

/-- A decoder reads a prefix when every read that succeeds consumed a chunk of the bytes in front
of it, and reads the same value from that chunk followed by any bytes, at any position. -/
def ReadsPrefix (d : Decoder α) : Prop :=
  ∀ ⦃r : Reader⦄ ⦃a : α⦄ ⦃r' : Reader⦄, d r = .ok a r' →
    ∃ chunk, r.rest = chunk ++ r'.rest ∧
      ∀ position rest, d ⟨position, chunk ++ rest⟩ = .ok a ⟨position + chunk.length, rest⟩

theorem readsPrefix_pure (a : α) : ReadsPrefix (pure a : Decoder α) := by
  intro r a' r' h
  cases h
  exact ⟨[], rfl, fun _ _ => rfl⟩

theorem ReadsPrefix.bind {d : Decoder α} {f : α → Decoder β} (hd : ReadsPrefix d)
    (hf : ∀ a, ReadsPrefix (f a)) : ReadsPrefix (d >>= f) := by
  intro r b r'' h
  obtain ⟨a, r', ha, hb⟩ := run_bind_eq_ok h
  obtain ⟨chunk₁, hrest₁, hread₁⟩ := hd ha
  obtain ⟨chunk₂, hrest₂, hread₂⟩ := hf a hb
  refine ⟨chunk₁ ++ chunk₂, by rw [hrest₁, hrest₂, List.append_assoc], fun position rest => ?_⟩
  rw [List.append_assoc, run_bind_of_ok (hread₁ position _), hread₂, List.length_append,
    Nat.add_assoc]

theorem ReadsPrefix.map {d : Decoder α} (f : α → β) (hd : ReadsPrefix d) :
    ReadsPrefix (f <$> d) := by
  intro r b r' h
  obtain ⟨a, ha, rfl⟩ := run_map_eq_ok h
  obtain ⟨chunk, hrest, hread⟩ := hd ha
  exact ⟨chunk, hrest, fun position rest => run_map_of_ok (hread position rest)⟩

theorem readsPrefix_fixed (n : Nat) : ReadsPrefix (fixed n) := by
  intro r v r' h
  exact ⟨v.toList, fixed_eq_ok h, fixed_run v⟩

theorem readsPrefix_slice (n : Nat) : ReadsPrefix (slice n) :=
  (readsPrefix_fixed n).bind fun _ => readsPrefix_pure _

theorem readsPrefix_u8 : ReadsPrefix u8 :=
  (readsPrefix_slice 1).bind fun _ => readsPrefix_pure _

theorem readsPrefix_u16 : ReadsPrefix u16 :=
  (readsPrefix_slice 2).bind fun _ => readsPrefix_pure _

theorem readsPrefix_u32 : ReadsPrefix u32 :=
  (readsPrefix_slice 4).bind fun _ => readsPrefix_pure _

end Decoder

namespace Operation

open Decoder

theorem truncatedLength_eq_ok {d : Decoder Nat} {r r' : Reader} {n : Nat}
    (h : truncatedLength d r = .ok n r') : d r = .ok n r' := by
  simp only [truncatedLength, tryCatch, MonadExcept.tryCatch, tryCatchThe, MonadExceptOf.tryCatch,
    EStateM.tryCatch] at h
  split at h
  · cases h
  · assumption

theorem readsPrefix_truncatedLength {d : Decoder Nat} (hd : ReadsPrefix d) :
    ReadsPrefix (truncatedLength d) := by
  intro r n r' h
  obtain ⟨chunk, hrest, hread⟩ := hd (truncatedLength_eq_ok h)
  exact ⟨chunk, hrest, fun position rest => truncatedLength_run (hread position rest)⟩

theorem readsPrefix_pushData (n : Nat) : ReadsPrefix (pushData n) := by
  intro r op r' h
  obtain ⟨_, _, hr, h⟩ := run_bind_eq_ok h
  cases hr
  split at h
  · cases h
  · obtain ⟨data, _, hdata, h⟩ := run_bind_eq_ok h
    cases h
    obtain ⟨rfl, hrest⟩ := slice_eq_ok hdata
    exact ⟨data, hrest, fun position rest => pushData_run position data rest⟩

theorem readsPrefix_ofOpcode (c : UInt8) : ReadsPrefix (ofOpcode c) := by
  unfold ofOpcode
  split_ifs
  · exact readsPrefix_pure _
  · exact readsPrefix_pushData _
  · exact (readsPrefix_truncatedLength (readsPrefix_u8.map _)).bind readsPrefix_pushData
  · exact (readsPrefix_truncatedLength (readsPrefix_u16.map _)).bind readsPrefix_pushData
  · exact (readsPrefix_truncatedLength (readsPrefix_u32.map _)).bind readsPrefix_pushData
  · exact readsPrefix_pure _
  · exact readsPrefix_pure _
  · exact readsPrefix_pure _

end Operation

open Decoder Operation

theorem decodeOperations_end (fuel position : Nat) :
    decodeOperations fuel ⟨position, []⟩ = .ok [] ⟨position, []⟩ := by
  cases fuel <;> rfl

theorem decodeOperations_succ_eq_ok {fuel : Nat} {r r' : Reader} {ops : List Operation}
    (h : decodeOperations (fuel + 1) r = .ok ops r') :
    (r.rest = [] ∧ ops = [] ∧ r' = r) ∨
      ∃ c chunk op ops' r₂, r.rest = c :: chunk ++ r₂.rest ∧
        (∀ position rest,
          ofOpcode c ⟨position, chunk ++ rest⟩ = .ok op ⟨position + chunk.length, rest⟩) ∧
        decodeOperations fuel r₂ = .ok ops' r' ∧ ops = op :: ops' := by
  rw [decodeOperations, run_bind_of_ok (reader_run r)] at h
  split at h
  · cases h
    exact .inl ⟨List.isEmpty_iff.1 ‹_›, rfl, rfl⟩
  · obtain ⟨c, r₁, hc, h⟩ := run_bind_eq_ok h
    obtain ⟨op, r₂, hop, h⟩ := run_bind_eq_ok h
    obtain ⟨ops', _, hops, h⟩ := run_bind_eq_ok h
    cases h
    obtain ⟨chunk, hchunk, hread⟩ := readsPrefix_ofOpcode c hop
    refine .inr ⟨c, chunk, op, ops', r₂, ?_, hread, hops, rfl⟩
    rw [u8_eq_ok hc, hchunk, List.cons_append]

theorem decodeOperations_succ_run {c : UInt8} {chunk : Bytes} {op : Operation}
    (hop : ∀ position rest,
      ofOpcode c ⟨position, chunk ++ rest⟩ = .ok op ⟨position + chunk.length, rest⟩)
    (fuel position : Nat) (rest : Bytes) :
    decodeOperations (fuel + 1) ⟨position, c :: chunk ++ rest⟩ =
      ((op :: ·) <$> decodeOperations fuel) ⟨position + 1 + chunk.length, rest⟩ := by
  have hmore : (Reader.mk position (c :: chunk ++ rest)).finished = false := rfl
  rw [decodeOperations, run_bind_of_ok (reader_run _), hmore, if_neg Bool.false_ne_true,
    List.cons_append, run_bind_of_ok (u8_run _ _ _), run_bind_of_ok (hop _ _)]
  show EStateM.bind _ _ _ = EStateM.map _ _ _
  simp only [EStateM.bind, EStateM.map]
  rfl

theorem decodeOperations_consumes {fuel : Nat} {r r' : Reader} {ops : List Operation}
    (h : decodeOperations fuel r = .ok ops r') :
    ops.length + r'.rest.length ≤ r.rest.length ∧ (r.rest.length ≤ fuel → r'.rest = []) := by
  induction fuel generalizing r ops with
  | zero =>
      cases h
      exact ⟨(Nat.zero_add _).le, fun hlen => List.eq_nil_of_length_eq_zero (Nat.le_zero.1 hlen)⟩
  | succ fuel ih =>
      rcases decodeOperations_succ_eq_ok h with ⟨hend, rfl, rfl⟩ | ⟨c, chunk, op, ops', r₂, hrest, -,
        hops, rfl⟩
      · exact ⟨(Nat.zero_add _).le, fun _ => hend⟩
      · obtain ⟨hlen, hend⟩ := ih hops
        rw [hrest]
        simp only [List.length_cons, List.length_append] at hlen hend ⊢
        exact ⟨by omega, fun hfuel => hend (by omega)⟩

/-- Decoding bytes that begin with a script which decodes reads that script's operations and then
goes on with the bytes after it, as if they stood alone at the position where they start. -/
theorem decodeOperations_append {fuel position : Nat} {a : Bytes} {x : List Operation}
    {r : Reader} (h : decodeOperations fuel ⟨position, a⟩ = .ok x r) (hend : r.rest = [])
    (fuel' : Nat) (hfuel : x.length ≤ fuel') (q : Nat) (b : Bytes) :
    decodeOperations fuel' ⟨q, a ++ b⟩ =
      ((x ++ ·) <$> decodeOperations (fuel' - x.length)) ⟨q + a.length, b⟩ := by
  -- the induction follows the decoding of `a`, one operation per unit of fuel
  induction fuel generalizing position a x r fuel' q with
  | zero =>
      cases h
      subst hend
      simp only [List.nil_append, List.length_nil, Nat.sub_zero, Nat.add_zero, id_map']
  | succ fuel ih =>
      rcases decodeOperations_succ_eq_ok h with ⟨ha, rfl, -⟩ | ⟨c, chunk, op, ops', ⟨p₂, a₂⟩, ha,
        hop, hops, rfl⟩
      · subst ha
        simp only [List.nil_append, List.length_nil, Nat.sub_zero, Nat.add_zero, id_map']
      · cases fuel' with
        | zero => cases hfuel
        | succ fuel' =>
          simp only at ha
          subst ha
          have hops' := ih hops hend fuel' (Nat.le_of_succ_le_succ hfuel) (q + 1 + chunk.length)
          have hpos : q + (c :: chunk ++ a₂).length = q + 1 + chunk.length + a₂.length := by
            simp only [List.length_append, List.length_cons]
            omega
          rw [List.append_assoc, decodeOperations_succ_run hop, run_map_eq_of_run_eq hops',
            Functor.map_map, hpos, List.length_cons, Nat.add_sub_add_right]
          rfl

theorem decodeOperations_eq_ok_of_eq_ok {fuel position : Nat} {bs : Bytes} {ops : List Operation}
    {r : Reader} (h : decodeOperations fuel ⟨position, bs⟩ = .ok ops r) (hfuel : bs.length ≤ fuel)
    {fuel' : Nat} (hfuel' : bs.length ≤ fuel') (q : Nat) :
    decodeOperations fuel' ⟨q, bs⟩ = .ok ops ⟨q + bs.length, []⟩ := by
  obtain ⟨hlen, hend⟩ := decodeOperations_consumes h
  have hrun := decodeOperations_append h (hend hfuel) fuel' (by simp only at hlen; omega) q []
  rw [List.append_nil] at hrun
  rw [hrun, run_map_of_ok (decodeOperations_end _ _), List.append_nil]

namespace Script

/-- The bytes of a script that decodes, followed by other bytes, decode to its operations
followed by theirs when they decode, and fail when they do not; so the operations of two scripts
built from their bytes and placed one after the other are those of the first, then those of the
second. -/
theorem decode_append {a b : Bytes} {x : List Operation} (ha : decode a = .ok x) :
    (∀ y, decode b = .ok y → decode (a ++ b) = .ok (x ++ y)) ∧
      ((∃ e, decode b = .error e) → ∃ e, decode (a ++ b) = .error e) ∧
      (∀ y, (ofBytes b).operations = .ok y →
        ((ofBytes a).append (ofBytes b)).operations = .ok (x ++ y)) := by
  obtain ⟨r, hrun⟩ := run_of_parse ha
  obtain ⟨hlen, hend⟩ := decodeOperations_consumes hrun
  simp only [Reader.ofBytes] at hlen hend
  -- decoding `a ++ b` reads `x` and then decodes `b` from where it starts
  have hsplit := decodeOperations_append hrun (hend (Nat.le_refl _)) (a ++ b).length
    (by rw [List.length_append]; omega) 0 b
  have hfuel : b.length ≤ (a ++ b).length - x.length := by
    rw [List.length_append]
    omega
  have hok : ∀ y, decode b = .ok y → decode (a ++ b) = .ok (x ++ y) := by
    intro y hb
    obtain ⟨r', hb⟩ := run_of_parse hb
    have htail := decodeOperations_eq_ok_of_eq_ok hb (Nat.le_refl _) hfuel (0 + a.length)
    exact parse_of_run (by rw [Reader.ofBytes, hsplit, run_map_of_ok htail])
  refine ⟨hok, fun ⟨e, hb⟩ => ?_, fun y hb => hok y hb⟩
  -- were the tail to decode, `b` alone would decode as well
  cases htail : decodeOperations ((a ++ b).length - x.length) ⟨0 + a.length, b⟩ with
  | ok y r' =>
      have hb' := decodeOperations_eq_ok_of_eq_ok htail hfuel (Nat.le_refl _) 0
      rw [decode, parse_of_run hb'] at hb
      cases hb
  | error e' r' =>
      refine ⟨e', ?_⟩
      simp only [decode, parse, runOn, EStateM.run, Reader.ofBytes, hsplit, run_map_of_error htail]

/-- `OP_DUP OP_HASH160` followed by a two-byte push decodes to both in order, also as two
scripts placed one after the other, and followed by a push that runs past the end it fails. -/
theorem decode_append_dup_hash160 :
    decode [0x76, 0xa9] = .ok [.code 0x76, .code 0xa9] ∧
      decode ([0x76, 0xa9] ++ [0x02, 0xab, 0xcd]) =
        .ok ([.code 0x76, .code 0xa9] ++ [.push [0xab, 0xcd]]) ∧
      (∃ e, decode ([0x76, 0xa9] ++ [0x02, 0xab]) = .error e) ∧
      ((ofBytes [0x76, 0xa9]).append (ofBytes [0x02, 0xab, 0xcd])).operations =
        .ok ([.code 0x76, .code 0xa9] ++ [.push [0xab, 0xcd]]) := by
  have ha : decode [0x76, 0xa9] = .ok [.code 0x76, .code 0xa9] := by rfl
  have hpush : decode [0x02, 0xab, 0xcd] = .ok [.push [0xab, 0xcd]] := by rfl
  obtain ⟨hok, -, hscript⟩ := decode_append (b := [0x02, 0xab, 0xcd]) ha
  obtain ⟨-, herr, -⟩ := decode_append (b := [0x02, 0xab]) ha
  exact ⟨ha, hok _ hpush, herr ⟨_, rfl⟩, hscript _ hpush⟩

end Script

end Bitcoin
