import Bitcoin.Curve.Sec
import Bitcoin.Signature
/-! # ECDSA keys: verification, signing and exported keys

A public key verifies a signature `(r, s)` over a message hash `z` when `r` and `s` are scalars in
`[1, N)` and the x coordinate of `u·G + v·Q`, for `u = z/s` and `v = r/s` modulo `N`, equals `r`
modulo `N`. A private key is a scalar in `[1, N)`; it signs with a nonce `k` as
`r = (k·G).x mod N`, `s = (z + r·secret)/k mod N`, and then replaces a high `s` by `N - s`. The
deterministic nonce follows RFC 6979 with HMAC-SHA256. A key is exported in Wallet Import Format,
Base58Check of a network byte, the 32-byte secret and an optional compression flag `01`.
-/

namespace Bitcoin

variable [Digests] [Base58Codec]

/-- ECDSA verification of `sig` over the message hash `z` against the public key `q`. High-s
signatures are accepted. -/
def Point.verify (q : Point) (z : Nat) (sig : Signature) : Bool :=
  let n := groupOrder
  match q with
  | .infinity _ => false
  | .affine .. =>
    if sig.r = 0 ∨ sig.s = 0 ∨ sig.r ≥ n ∨ sig.s ≥ n then false
    else
      let sInv := Field.inv sig.s n
      let u := Field.mul z sInv n
      let v := Field.mul sig.r sInv n
      match ((Point.generator.smul u).add (q.smul v)).x? with
      | some x => x % n == sig.r
      | none => false

/-- A secret scalar in `[1, N)` together with its public key `secret·G`. -/
structure PrivateKey where
  /-- The secret scalar. -/
  secret : Nat
  /-- The secret is a valid scalar. -/
  valid : isValidScalar secret = true

namespace PrivateKey

/-- The private key of a secret, if it lies in `[1, N)`. -/
def ofSecret (secret : Nat) : Outcome PrivateKey :=
  if h : isValidScalar secret = true then .ok ⟨secret, h⟩
  else .error (.invalidPrivateKey "secret outside [1, N-1]")

def publicKey (key : PrivateKey) : Point :=
  Point.generator.smul key.secret

/-- Sign the message hash `z` with the nonce `k`, producing a low-s signature. -/
def signWithNonce (key : PrivateKey) (z k : Nat) : Outcome Signature := do
  let n := groupOrder
  if !isValidScalar k then throw (.invalidPrivateKey "nonce outside [1, N-1]")
  let r ← match (Point.generator.smul k).x? with
    | some x => pure (Field.normalize x n)
    | none => throw (.invalidPrivateKey "nonce produced infinity")
  if r = 0 then throw (.invalidPrivateKey "nonce produced r = 0")
  let s := Field.mul (Field.add z (Field.mul r key.secret n) n) (Field.inv k n) n
  if s = 0 then throw (.invalidPrivateKey "nonce produced s = 0")
  return ⟨r, if s > halfOrder then n - s else s⟩

/-- The HMAC-DRBG search of RFC 6979: draw `V = HMAC(K, V)` and take it when it is a valid
scalar, else rekey with `K = HMAC(K, V ‖ 00)`, `V = HMAC(K, V)` and draw again. A draw is invalid
with probability below 2⁻¹²⁷, so the search stops after `tries` draws and returns the number of
the rekeyed `V` without checking it; signing rejects it if it is not a valid scalar. -/
def nonceSearch (k v : Bytes) : Nat → Nat
  | 0 => Bytes.toNatBE v
  | tries + 1 =>
    let v := Digests.hmacSha256 k v
    let candidate := Bytes.toNatBE v
    if isValidScalar candidate then candidate
    else
      let k := Digests.hmacSha256 k (v ++ [0x00])
      nonceSearch k (Digests.hmacSha256 k v) tries

/-- The deterministic nonce of RFC 6979 for the message hash `z`, seeded with the 32-byte secret
and `z mod N`. -/
def deterministicNonce (key : PrivateKey) (z : Nat) : Nat :=
  let seed := Field.toBytes32 key.secret ++ Field.toBytes32 (z % groupOrder)
  let k := List.replicate 32 (0 : UInt8)
  let v := List.replicate 32 (1 : UInt8)
  let k := Digests.hmacSha256 k (v ++ [0x00] ++ seed)
  let v := Digests.hmacSha256 k v
  let k := Digests.hmacSha256 k (v ++ [0x01] ++ seed)
  let v := Digests.hmacSha256 k v
  nonceSearch k v 64

def sign (key : PrivateKey) (z : Nat) : Outcome Signature :=
  key.signWithNonce z (key.deterministicNonce z)

def wif (key : PrivateKey) (compressed : Bool) (network : Network) : String :=
  Base58.encodeCheck
    (network.wifPrefix :: Field.toBytes32 key.secret ++ (if compressed then [0x01] else []))

/-- Read a key in Wallet Import Format: the checksum, then the network byte, then a payload of 33
bytes, or 34 ending in the compression flag, then the secret's range. -/
def ofWif (text : String) : Outcome (PrivateKey × Network × Bool) := do
  let payload ← Base58.decodeCheck text
  let network ← match payload.head? with
    | some 0x80 => pure Network.mainnet
    | some 0xef => pure Network.testnet
    | _ => throw (.invalidPrivateKey "unknown WIF prefix")
  let compressed ← if payload.length = 33 then pure false
    else if payload.length = 34 ∧ payload.getLast? = some 0x01 then pure true
    else throw (.invalidPrivateKey s!"WIF payload of {payload.length} bytes")
  let key ← ofSecret (Bytes.toNatBE ((payload.drop 1).take 32))
  return (key, network, compressed)

end PrivateKey

end Bitcoin
