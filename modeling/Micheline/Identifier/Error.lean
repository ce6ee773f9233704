/-
Micheline/Identifier/Error.lean

Why a text or a byte string is no identifier.
-/
import Micheline.Base58.Basic
import Micheline.Identifier.Kind

namespace Micheline.Identifier

/-- The uses of identifiers that have a binary form of their own. -/
inductive Role where
  | address
  | keyHash
  | key
  | signature
  | chainId
  | rollupAddress
  deriving DecidableEq, Repr

def Role.name : Role → String
  | .address => "address"
  | .keyHash => "key_hash"
  | .key => "key"
  | .signature => "signature"
  | .chainId => "chain_id"
  | .rollupAddress => "tx_rollup_l2_address"

inductive Error where
  /-- The text is not in checked base 58. -/
  | base58 (cause : Base58.Error)
  /-- No kind has such version bytes and such a length. -/
  | unknownVersion (text : String)
  /-- The text is of another kind. -/
  | unexpectedKind (text : String) (expected found : Kind)
  /-- The payload of a kind has a fixed length. -/
  | payloadLength (kind : Kind) (found : Nat)
  /-- The text before the entrypoint is no identifier. -/
  | addressText (text : String) (cause : Error)
  /-- The text is of a kind that is no address. -/
  | notAddress (text : String) (kind : Kind)
  /-- A binary address has a least length. -/
  | addressTooShort (found : Nat)
  /-- No curve has this tag. -/
  | unknownCurve (tag : UInt8)
  /-- The byte behind the hash of a contract is zero. -/
  | missingPadding
  /-- No kind of address has this tag. -/
  | unknownAddressTag (tag : UInt8)
  /-- The entrypoint is not in UTF-8. -/
  | invalidEntrypoint
  /-- The text is of a kind that is of no use as a key hash, key or signature. -/
  | unsuitable (role : Role) (text : String)
  /-- The bytes have the wrong length. -/
  | wrongLength (role : Role) (expected found : Nat)
  /-- No kind of key or key hash has this tag. -/
  | unknownTag (role : Role) (tag : UInt8)
  /-- A key has a tag at least. -/
  | emptyKey
  /-- No signature has this length. -/
  | signatureLength (found : Nat)
  deriving DecidableEq, Repr

/-- What an identifier of a use is called. -/
def Role.noun : Role → String
  | .keyHash => "public key hash"
  | .key => "public key"
  | role => role.name

def Error.message : Error → String
  | .base58 cause => cause.message
  | .unknownVersion text => "unknown base58 prefix: " ++ text
  | .unexpectedKind text expected found =>
    "unknown base58 prefix: " ++ text ++ ": expected " ++ expected.lead ++ ", got " ++ found.lead
  | .payloadLength kind found =>
    "invalid " ++ kind.lead ++ ": expected " ++ kind.payloadLength.repr ++ " payload bytes, got "
      ++ found.repr
  | .addressText text cause => "invalid address: " ++ text ++ ": " ++ cause.message
  | .notAddress text kind =>
    "invalid address: " ++ text ++ " is a " ++ kind.lead ++ " identifier, not an address"
  | .addressTooShort found =>
    "invalid address: expected at least 22 bytes, got " ++ found.repr
  | .unknownCurve tag => "invalid address: unknown curve tag " ++ tag.toNat.repr
  | .missingPadding => "invalid address: missing zero padding byte"
  | .unknownAddressTag tag => "invalid address: unknown address tag " ++ tag.toNat.repr
  | .invalidEntrypoint => "string is not valid UTF-8"
  | .unsuitable role text =>
    "invalid " ++ role.name ++ ": " ++ text ++ " is not a " ++ role.noun
  | .wrongLength role expected found =>
    "invalid " ++ role.name ++ ": expected " ++ expected.repr ++ " bytes, got " ++ found.repr
  | .unknownTag role tag => "invalid " ++ role.name ++ ": unknown tag " ++ tag.toNat.repr
  | .emptyKey => "invalid key: empty input"
  | .signatureLength found => "invalid signature: unexpected length " ++ found.repr

end Micheline.Identifier
