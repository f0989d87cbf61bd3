import Bitcoin.Key
import Bitcoin.Proofs.Wire.Decode

/-! # Base58Check round trips

For any codec that reads back what it writes, every payload comes back from its Base58Check text,
and with it the hash inside every address and every exported key, with its network and
compression flag. The standard codec is such a codec: its text is ASCII digits, the leading `1`s
give back the leading zero bytes, and the other digits the minimal big-endian bytes of the rest.
-/

namespace Bitcoin

theorem byteArray_toList (bs : ByteArray) : bs.toList = bs.data.toList := by
  -- the loop has pushed the bytes before `i`, reversed, onto `r`
  have hloop : ∀ i r, ByteArray.toList.loop bs i r = r.reverse ++ bs.data.toList.drop i := by
    intro i r
    fun_induction ByteArray.toList.loop bs i r with
    | case1 i r hi ih =>
        have hi' : i < bs.data.toList.length := by simpa using hi
        rw [ih, List.drop_eq_getElem_cons hi', List.reverse_cons, List.append_assoc,
          List.singleton_append]
        congr 2
        simp [ByteArray.get!, hi]
    | case2 i r hi =>
        rw [List.drop_eq_nil_of_le (by simpa using hi), List.append_nil]
  rw [ByteArray.toList, hloop, List.reverse_nil, List.nil_append, List.drop_zero]

namespace Base58

theorem digit_spec : ∀ v, v < 58 →
    (digit v).val ≤ 127 ∧ ¬(digit v).val.toUInt8 > 127 ∧ digitValue? (digit v).val.toUInt8 = some v ∧
      ((digit v).val.toUInt8 = 49 ↔ v = 0) := by
  decide

theorem toList_toUTF8_ofList {cs : List Char} (h : ∀ c ∈ cs, c.val ≤ 127) :
    (String.ofList cs).toUTF8.toList = cs.map fun c => c.val.toUInt8 := by
  rw [String.toUTF8_eq_toByteArray, String.toByteArray_ofList, byteArray_toList, List.utf8Encode,
    List.toList_data_toByteArray]
  induction cs with
  | nil => rfl
  | cons c cs ih =>
      have hc : c.utf8Size = 1 := Char.utf8Size_eq_one_iff.2 (h c List.mem_cons_self)
      rw [List.flatMap_cons, String.utf8EncodeChar_eq_singleton hc, List.map_cons,
        ih fun d hd => h d (List.mem_cons_of_mem c hd), List.singleton_append]

theorem digitValues_map_digit {vs : List Nat} (h : ∀ v ∈ vs, v < 58) (i : Nat) :
    digitValues i (vs.map fun v => (digit v).val.toUInt8) = .ok vs := by
  induction vs generalizing i with
  | nil => rfl
  | cons v vs ih =>
      obtain ⟨-, hlow, hvalue, -⟩ := digit_spec v (h v List.mem_cons_self)
      rw [List.map_cons, digitValues, if_neg hlow, hvalue]
      simp only [ih fun w hw => h w (List.mem_cons_of_mem v hw)]
      rfl

theorem digitsOf_eq_map (n : Nat) :
    ∃ ws : List Nat, digitsOf n = ws.map digit ∧ (∀ w ∈ ws, w < 58) ∧
      ws.foldl (fun acc v => 58 * acc + v) 0 = n ∧ ws.head? ≠ some 0 := by
  fun_induction digitsOf n with
  | case1 => exact ⟨[], rfl, by simp, rfl, by simp⟩
  | case2 n hn ih =>
      obtain ⟨ws, hws, hlt, hval, hhead⟩ := ih
      refine ⟨ws ++ [n % 58], by rw [hws, List.map_append]; rfl, ?_, ?_, ?_⟩
      · intro w hw
        rcases List.mem_append.1 hw with hw | hw
        · exact hlt w hw
        · rw [List.mem_singleton.1 hw]
          exact Nat.mod_lt _ (by norm_num)
      · rw [List.foldl_append, hval, List.foldl_cons, List.foldl_nil]
        omega
      · -- a single digit is the number itself, which is not zero
        cases ws with
        | nil =>
            simp only [List.foldl_nil] at hval
            simp only [List.nil_append, List.head?_cons, ne_eq, Option.some.injEq]
            omega
        | cons w ws => simpa using hhead

theorem foldl_digits_replicate_zero (z : Nat) (ws : List Nat) :
    (List.replicate z 0 ++ ws).foldl (fun acc v => 58 * acc + v) 0 =
      ws.foldl (fun acc v => 58 * acc + v) 0 := by
  rw [List.foldl_append]
  congr 1
  induction z with
  | zero => rfl
  | succ k ih => rw [List.replicate_succ, List.foldl_cons, Nat.mul_zero, Nat.add_zero, ih]

/-- Leading zero digits, and only they, are written as the leading `1`s of the text. -/
theorem length_takeWhile_one (z : Nat) {ws : List Nat} (hlt : ∀ w ∈ ws, w < 58)
    (hhead : ws.head? ≠ some 0) :
    (((List.replicate z 0 ++ ws).map fun v => (digit v).val.toUInt8).takeWhile
      (· == 49)).length = z := by
  rw [List.map_append, List.takeWhile_append_of_pos]
  · cases ws with
    | nil => simp
    | cons w ws =>
        have hw : (digit w).val.toUInt8 ≠ 49 := fun h =>
          hhead (by rw [(digit_spec w (hlt w List.mem_cons_self)).2.2.2.1 h]; rfl)
        rw [List.map_cons, List.takeWhile_cons_of_neg (by simpa using hw), List.append_nil,
          List.length_map, List.length_replicate]
  · intro b hb
    obtain ⟨v, hv, rfl⟩ := List.mem_map.1 hb
    rw [List.eq_of_mem_replicate hv]
    decide

/-- The standard codec reads back every byte string it writes. -/
theorem standardDecode_standardEncode (data : Bytes) :
    standardDecode (standardEncode data) = .ok data := by
  obtain ⟨ws, hws, hlt, hval, hhead⟩ := digitsOf_eq_map (Bytes.toNatBE data)
  -- the text is the digits of `0^z ws`, with `z` the count of leading zero bytes
  let z := (data.takeWhile (· == 0)).length
  have hvalues : ∀ v ∈ List.replicate z 0 ++ ws, v < 58 := by
    intro v hv
    rcases List.mem_append.1 hv with hv | hv
    · rw [List.eq_of_mem_replicate hv]
      norm_num
    · exact hlt v hv
  have hascii : ∀ c ∈ (List.replicate z 0 ++ ws).map digit, c.val ≤ 127 := by
    intro c hc
    obtain ⟨v, hv, rfl⟩ := List.mem_map.1 hc
    exact (digit_spec v (hvalues v hv)).1
  have hraw : (standardEncode data).toUTF8.toList =
      (List.replicate z 0 ++ ws).map fun v => (digit v).val.toUInt8 := by
    have htext : List.replicate z '1' ++ digitsOf (Bytes.toNatBE data) =
        (List.replicate z 0 ++ ws).map digit := by
      rw [hws, List.map_append, List.map_replicate]
      rfl
    rw [standardEncode, htext, toList_toUTF8_ofList hascii, List.map_map]
    rfl
  have hnumber : (List.replicate z 0 ++ ws).foldl (fun acc v => 58 * acc + v) 0 =
      Bytes.toNatBE data := by
    rw [foldl_digits_replicate_zero, hval]
  simp only [standardDecode, hraw, digitValues_map_digit hvalues, length_takeWhile_one z hlt hhead,
    hnumber]
  exact congrArg Except.ok (replicate_append_minimalBytes data)

section Codec

variable [Digests] [Base58Codec]

omit [Digests] in
theorem decode_encode (hround : ∀ data, Base58Codec.decode (Base58Codec.encode data) = .ok data)
    (data : Bytes) : decode (encode data) = .ok data := by
  rw [decode, encode, hround]

omit [Base58Codec] in
theorem length_checksum (payload : Bytes) : (checksum payload).length = 4 := by
  rw [checksum, List.length_take, Hash.hash256, Digests.length_sha256]
  rfl

/-- Base58Check decoding gives back every payload. -/
theorem decodeCheck_encodeCheck
    (hround : ∀ data, Base58Codec.decode (Base58Codec.encode data) = .ok data) (payload : Bytes) :
    decodeCheck (encodeCheck payload) = .ok payload := by
  have hlen : (payload ++ checksum payload).length - 4 = payload.length := by
    rw [List.length_append, length_checksum, Nat.add_sub_cancel]
  have hshort : ¬(payload ++ checksum payload).length < 4 := by
    rw [List.length_append, length_checksum]
    omega
  rw [decodeCheck, encodeCheck, decode_encode hround, except_ok_bind, if_neg hshort, hlen,
    List.take_left, List.drop_left, if_neg (not_not.2 rfl)]
  rfl

/-- An address reads back as the hash behind its version byte. -/
theorem decodeAddress_encodeCheck
    (hround : ∀ data, Base58Codec.decode (Base58Codec.encode data) = .ok data)
    (h160 : FixedBytes 20) (version : UInt8) :
    decodeAddress (encodeCheck (version :: h160.toList)) = .ok h160 := by
  have hlen : (version :: h160.toList).length = 21 := by
    rw [List.length_cons, h160.length_toList]
  rw [decodeAddress, decodeCheck_encodeCheck hround, except_ok_bind, dif_pos hlen]
  rfl

end Codec

end Base58

namespace PrivateKey

theorem toNatBE_toBytes32_secret (key : PrivateKey) :
    Bytes.toNatBE (Field.toBytes32 key.secret) = key.secret := by
  have hlt : key.secret < groupOrder := by
    have := key.valid
    simp only [isValidScalar, Bool.and_eq_true, decide_eq_true_eq] at this
    exact this.2
  rw [Field.toBytes32, toNatBE_beBytes, Nat.mod_eq_of_lt (Nat.lt_trans hlt (by decide))]

theorem ofSecret_secret (key : PrivateKey) : ofSecret key.secret = .ok key := by
  rw [ofSecret, dif_pos key.valid]

section Codec

variable [Digests] [Base58Codec]

/-- An exported key reads back with its network and compression flag: the payload is the
network byte, the 32 bytes of the secret and, for a compressed key, the flag `01`. -/
theorem ofWif_wif (hround : ∀ data, Base58Codec.decode (Base58Codec.encode data) = .ok data)
    (key : PrivateKey) (compressed : Bool) (network : Network) :
    ofWif (key.wif compressed network) = .ok (key, network, compressed) := by
  have hlen : (Field.toBytes32 key.secret).length = 32 := length_beBytes 32 _
  have htake : ∀ flag : Bytes, (Field.toBytes32 key.secret ++ flag).take 32 =
      Field.toBytes32 key.secret := fun _ => List.take_left' hlen
  have htake₀ : (Field.toBytes32 key.secret).take 32 = Field.toBytes32 key.secret :=
    List.take_of_length_le (Nat.le_of_eq hlen)
  have hlast : ∀ v : UInt8, (v :: (Field.toBytes32 key.secret ++ [0x01])).getLast? = some 0x01 :=
    fun v => by rw [← List.cons_append, List.getLast?_append]; rfl
  rw [ofWif, wif, Base58.decodeCheck_encodeCheck hround, except_ok_bind]
  cases network <;> cases compressed <;>
    simp [List.cons_append, Network.wifPrefix, hlen, htake, htake₀, hlast, toNatBE_toBytes32_secret,
      ofSecret_secret]

end Codec

end PrivateKey

namespace Base58

section Codec

variable [Digests] [Base58Codec]

/-- For a codec that reads back what it writes, Base58Check text reads back as its payload; so an
exported key reads back as the key, its network and its compression flag, and an address of
either kind as its hash. -/
theorem encodeCheck_roundtrips
    (hround : ∀ data, Base58Codec.decode (Base58Codec.encode data) = .ok data) :
    (∀ payload, decodeCheck (encodeCheck payload) = .ok payload) ∧
      (∀ (key : PrivateKey) compressed network,
        PrivateKey.ofWif (key.wif compressed network) = .ok (key, network, compressed)) ∧
      (∀ h160 network, decodeAddress (p2pkhAddress h160 network) = .ok h160 ∧
        decodeAddress (p2shAddress h160 network) = .ok h160) :=
  ⟨decodeCheck_encodeCheck hround, PrivateKey.ofWif_wif hround, fun h160 _ =>
    ⟨decodeAddress_encodeCheck hround h160 _, decodeAddress_encodeCheck hround h160 _⟩⟩

end Codec

/-- The standard codec reads back what it writes, so with it every payload, exported key and
address reads back. -/
theorem encodeCheck_roundtrips_standard :
    (∀ data, Base58Codec.decode (Base58Codec.encode data) = .ok data) ∧
      (∀ payload, decodeCheck (encodeCheck payload) = .ok payload) ∧
      (∀ (key : PrivateKey) compressed network,
        PrivateKey.ofWif (key.wif compressed network) = .ok (key, network, compressed)) ∧
      (∀ h160 network, decodeAddress (p2pkhAddress h160 network) = .ok h160 ∧
        decodeAddress (p2shAddress h160 network) = .ok h160) :=
  ⟨standardDecode_standardEncode, encodeCheck_roundtrips standardDecode_standardEncode⟩

end Base58

end Bitcoin
