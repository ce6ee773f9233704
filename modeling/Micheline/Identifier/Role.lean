/-
Micheline/Identifier/Role.lean

Identifiers by their use: each use has a form as text and a form as bytes.
-/
import Micheline.Identifier.Address
import Micheline.Identifier.Key

namespace Micheline.Identifier.Role

/-- The bytes of the text of an identifier, with a given checksum. -/
def toBytesWith (sum : Base58.Checksum) : Role → String → Except Error Bytes
  | .address => Address.toBytesWith sum
  | .keyHash => KeyHash.toBytesWith sum
  | .key => PublicKey.toBytesWith sum
  | .signature => Signature.toBytesWith sum
  | .chainId => ChainId.toBytesWith sum
  | .rollupAddress => RollupAddress.toBytesWith sum

/-- The text of the bytes of an identifier, with a given checksum. -/
def ofBytesWith (sum : Base58.Checksum) : Role → Bytes → Except Error String
  | .address => Address.ofBytesWith sum
  | .keyHash => KeyHash.ofBytesWith sum
  | .key => PublicKey.ofBytesWith sum
  | .signature => Signature.ofBytesWith sum
  | .chainId => ChainId.ofBytesWith sum
  | .rollupAddress => RollupAddress.ofBytesWith sum

def toBytes : Role → String → Except Error Bytes :=
  toBytesWith Base58.doubleSha256

def ofBytes : Role → Bytes → Except Error String :=
  ofBytesWith Base58.doubleSha256

end Micheline.Identifier.Role
