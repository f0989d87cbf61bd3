import Bitcoin.Hash.Sha256
import Bitcoin.Hash.Sha1
import Bitcoin.Hash.Ripemd160
/-! # The digests of the Bitcoin wire format

The digest functions come from the library's cryptographic dependencies, so they are a parameter,
`Digests`, which carries the digest lengths that their result types fix; `Digests.standard`
computes them. Transactions, blocks and merkle nodes are named by HASH256, SHA-256 applied twice;
public keys and redeem scripts by HASH160, RIPEMD-160 of SHA-256.
-/

namespace Bitcoin

/-- The digest functions the library takes from its dependencies. -/
class Digests where
  /-- SHA-256. -/
  sha256 : Bytes → Bytes
  /-- RIPEMD-160. -/
  ripemd160 : Bytes → Bytes
  /-- SHA-1. -/
  sha1 : Bytes → Bytes
  /-- HMAC over SHA-256, keyed by its first argument. -/
  hmacSha256 : Bytes → Bytes → Bytes
  /-- A SHA-256 digest is 32 bytes. -/
  length_sha256 : ∀ msg, (sha256 msg).length = 32
  /-- A RIPEMD-160 digest is 20 bytes. -/
  length_ripemd160 : ∀ msg, (ripemd160 msg).length = 20

namespace Hash

/-- HMAC (RFC 2104) over a hash with 64-byte blocks: a longer key is hashed first, then padded with
zeros to a block and mixed into an inner and an outer digest. -/
def hmac (hash : Bytes → Bytes) (key msg : Bytes) : Bytes :=
  let k := if key.length > 64 then hash key else key
  let block := k ++ List.replicate (64 - k.length) 0
  let inner := hash (block.map (· ^^^ 0x36) ++ msg)
  hash (block.map (· ^^^ 0x5c) ++ inner)

end Hash

/-- The digests as the dependencies compute them: SHA-256 and SHA-1 of FIPS 180-4, RIPEMD-160,
and HMAC over SHA-256. -/
instance Digests.standard : Digests where
  sha256 := Hash.Sha256.hash
  ripemd160 := Hash.Ripemd160.hash
  sha1 := Hash.Sha1.hash
  hmacSha256 := Hash.hmac Hash.Sha256.hash
  length_sha256 := Hash.Sha256.length_hash
  length_ripemd160 := Hash.Ripemd160.length_hash

namespace Hash

variable [Digests]

/-- SHA-256 applied twice. -/
def hash256 (msg : Bytes) : Bytes :=
  Digests.sha256 (Digests.sha256 msg)

/-- HASH256 in display order: the digest bytes reversed, as identifiers are shown. -/
def hash256Reversed (msg : Bytes) : FixedBytes 32 :=
  ⟨(hash256 msg).reverse, by rw [List.length_reverse, hash256, Digests.length_sha256]⟩

/-- RIPEMD-160 of SHA-256, the 20 bytes that name a key or a redeem script. -/
def hash160 (msg : Bytes) : FixedBytes 20 :=
  ⟨Digests.ripemd160 (Digests.sha256 msg), Digests.length_ripemd160 _⟩

end Hash

end Bitcoin
