import Bitcoin.Hash
import Bitcoin.Error
import Bitcoin.Network
/-! # Base58 and Base58Check

Base58 comes from a dependency, so the codec is a parameter, `Base58Codec`. The standard codec
writes a byte string as a number in base 58 over an alphabet without `0`, `O`, `I` and `l`, with
one `1` for each leading zero byte. Base58Check appends the first four bytes of the payload's
HASH256 and checks them when decoding; legacy addresses are Base58Check of a version byte and a
20-byte hash.
-/

namespace Bitcoin

/-- The Base58 codec the library takes from its dependencies. -/
class Base58Codec where
  /-- Write bytes as Base58 text. -/
  encode : Bytes → String
  /-- Read Base58 text, or give the codec's text of why it is not Base58. -/
  decode : String → Except String Bytes

namespace Base58

def alphabet : List Char :=
  "123456789ABCDEFGHJKLMNPQRSTUVWXYZabcdefghijkmnopqrstuvwxyz".toList

def digit (v : Nat) : Char :=
  alphabet.getD v '1'

def digitValue? (b : UInt8) : Option Nat :=
  alphabet.idxOf? (Char.ofNat b.toNat)

def digitsOf (n : Nat) : List Char :=
  if n = 0 then [] else digitsOf (n / 58) ++ [digit (n % 58)]
termination_by n
decreasing_by omega

/-- Encode bytes: a `1` per leading zero byte, then the digits of the number the rest spell. -/
def standardEncode (data : Bytes) : String :=
  let zeros := (data.takeWhile (· == 0)).length
  String.ofList (List.replicate zeros '1' ++ digitsOf (Bytes.toNatBE data))

/-- How an ASCII character is quoted in an error text: in single quotes, with the escapes `\0`,
`\t`, `\r`, `\n`, `\'` and `\\`, and other control characters as `\u{..}` in hexadecimal. -/
def quoteAscii (b : UInt8) : String :=
  let body :=
    if b = 0 then "\\0"
    else if b = 9 then "\\t"
    else if b = 10 then "\\n"
    else if b = 13 then "\\r"
    else if b = 39 then "\\'"
    else if b = 92 then "\\\\"
    else if b < 32 ∨ b = 127 then "\\u\x7b" ++ natHex b.toNat ++ "\x7d"
    else String.singleton (Char.ofNat b.toNat)
  "'" ++ body ++ "'"

/-- Why a text is not Base58: the byte offset and, for an ASCII byte, the byte itself. -/
inductive DecodeFault where
  /-- A byte outside ASCII, at the start of a multi-byte character. -/
  | nonAscii (index : Nat)
  /-- An ASCII character that is not a digit. -/
  | invalidCharacter (byte : UInt8) (index : Nat)

def DecodeFault.message : DecodeFault → String
  | .nonAscii i => s!"provided string contained non-ascii character starting at byte {i}"
  | .invalidCharacter b i =>
    "provided string contained invalid character " ++ quoteAscii b ++ s!" at byte {i}"

def digitValues : Nat → List UInt8 → Except DecodeFault (List Nat)
  | _, [] => .ok []
  | i, b :: rest =>
    if b > 127 then .error (.nonAscii i)
    else match digitValue? b with
      | none => .error (.invalidCharacter b i)
      | some v => (digitValues (i + 1) rest).map (v :: ·)

/-- Decode Base58 text: each leading `1` is a zero byte, and the rest spell a number. -/
def standardDecode (s : String) : Except String Bytes :=
  let raw := s.toUTF8.toList
  match digitValues 0 raw with
  | .error f => .error f.message
  | .ok values =>
    let zeros := (raw.takeWhile (· == 49)).length
    .ok (List.replicate zeros 0 ++ minimalBytes (values.foldl (fun acc v => 58 * acc + v) 0))

end Base58

/-- Base58 as the dependency computes it. -/
instance Base58Codec.standard : Base58Codec :=
  ⟨Base58.standardEncode, Base58.standardDecode⟩

namespace Base58

variable [Base58Codec] [Digests]

def encode (data : Bytes) : String :=
  Base58Codec.encode data

/-- Read Base58 text; the codec's error becomes a Base58 error. -/
def decode (s : String) : Outcome Bytes :=
  match Base58Codec.decode s with
  | .ok data => .ok data
  | .error msg => .error (.base58 msg)

def checksum (payload : Bytes) : Bytes :=
  (Hash.hash256 payload).take 4

/-- Base58Check: the payload followed by its checksum, in Base58. -/
def encodeCheck (payload : Bytes) : String :=
  encode (payload ++ checksum payload)

/-- Decode Base58Check text and return the payload, after checking its four-byte checksum. -/
def decodeCheck (s : String) : Outcome Bytes := do
  let data ← decode s
  if data.length < 4 then
    throw (.base58 s!"{data.length} bytes is too short to carry a checksum")
  let payload := data.take (data.length - 4)
  if checksum payload ≠ data.drop (data.length - 4) then
    throw (.base58 ("bad checksum in " ++ s))
  return payload

def p2pkhAddress (h160 : FixedBytes 20) (network : Network) : String :=
  encodeCheck (network.p2pkhPrefix :: h160.toList)

def p2shAddress (h160 : FixedBytes 20) (network : Network) : String :=
  encodeCheck (network.p2shPrefix :: h160.toList)

/-- The 20-byte hash inside an address: a 21-byte payload after its version byte. -/
def decodeAddress (address : String) : Outcome (FixedBytes 20) := do
  let payload ← decodeCheck address
  if h : payload.length = 21 then
    return ⟨payload.drop 1, by rw [List.length_drop, h]⟩
  else
    throw (.base58 s!"address payload is {payload.length} bytes, expected 21")

end Base58

end Bitcoin
