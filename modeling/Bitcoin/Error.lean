/-! # Errors

An operation that cannot complete fails with one `Error`: its constructor names what went wrong
and carries the detail text. `Error.message` writes the text a user sees: a fixed prefix per
kind, then the detail. Errors from a transaction source are shown as they come, with no prefix.
-/

namespace Bitcoin

/-- Why an operation could not complete. -/
inductive Error where
  /-- A read ran past the end of the data. -/
  | unexpectedEnd (detail : String)
  /-- A script's bytes do not split into operations. -/
  | scriptParse (detail : String)
  /-- A public key is not a valid SEC encoding of a curve point. -/
  | invalidPublicKey (detail : String)
  /-- A signature is not a valid DER encoding. -/
  | invalidSignature (detail : String)
  /-- Coordinates that do not name a point of the curve. -/
  | invalidPoint (detail : String)
  /-- A secret or nonce outside the scalar range, or a bad WIF payload. -/
  | invalidPrivateKey (detail : String)
  /-- Base58 text that does not decode, or fails its checksum. -/
  | base58 (detail : String)
  /-- A partial merkle tree that does not rebuild its root. -/
  | malformedMerkleProof (detail : String)
  /-- An input or output index past the end of its list. -/
  | inputOutOfRange (detail : String)
  /-- A structure whose bytes or values are out of shape. -/
  | serialization (detail : String)
  /-- A transaction source could not supply a transaction. -/
  | provider (detail : String)
  deriving Repr, DecidableEq, Inhabited

namespace Error

/-- The text of an error: the prefix of its kind followed by its detail. -/
def message : Error → String
  | unexpectedEnd d => "Unexpected end of data: " ++ d
  | scriptParse d => "Script parse failed: " ++ d
  | invalidPublicKey d => "Invalid SEC public key: " ++ d
  | invalidSignature d => "Invalid DER signature: " ++ d
  | invalidPoint d => "Invalid curve point: " ++ d
  | invalidPrivateKey d => "Invalid private key: " ++ d
  | base58 d => "Base58 decoding failed: " ++ d
  | malformedMerkleProof d => "Malformed merkle proof: " ++ d
  | inputOutOfRange d => "Input index out of range: " ++ d
  | serialization d => "Serialization error: " ++ d
  | provider d => d

end Error

/-- The result of an operation that may fail with an `Error`. -/
abbrev Outcome (α : Type) := Except Error α

end Bitcoin
