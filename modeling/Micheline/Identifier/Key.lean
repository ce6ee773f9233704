/-
Micheline/Identifier/Key.lean

The bytes of public keys and their hashes, signatures, chain identifiers and rollup
addresses.  A key and a key hash carry the tag of their curve; of a signature the curve is
not kept, so that sixty-four bytes read back as a generic signature.

What is said of them holds for any checksum of their texts.
-/
import Micheline.Identifier.Basic

namespace Micheline.Identifier

variable (sum : Base58.Checksum)

/-! ### Key hashes -/

def KeyHash.toBytesWith (text : String) : Except Error Bytes := do
  let (kind, payload) ← decodeWith sum text
  match Kind.keyHashes.idxOf? kind with
  | some curve => return UInt8.ofNat curve :: payload
  | none => throw (.unsuitable .keyHash text)

def KeyHash.ofBytesWith (data : Bytes) : Except Error String :=
  match data with
  | curve :: payload =>
    if payload.length ≠ 20 then .error (.wrongLength .keyHash 21 data.length)
    else
      match Kind.keyHashes[curve.toNat]? with
      | some kind => encodeWith sum kind payload
      | none => .error (.unknownTag .keyHash curve)
  | [] => .error (.wrongLength .keyHash 21 0)

/-! ### Keys -/

def PublicKey.toBytesWith (text : String) : Except Error Bytes := do
  let (kind, payload) ← decodeWith sum text
  match Kind.publicKeys.idxOf? kind with
  | some curve => return UInt8.ofNat curve :: payload
  | none => throw (.unsuitable .key text)

def PublicKey.ofBytesWith : Bytes → Except Error String
  | [] => .error .emptyKey
  | curve :: payload =>
    match Kind.publicKeys[curve.toNat]? with
    | some kind => encodeWith sum kind payload
    | none => .error (.unknownTag .key curve)

/-! ### Signatures -/

/-- The bytes of a signature of any kind. -/
def Signature.toBytesWith (text : String) : Except Error Bytes := do
  let (kind, payload) ← decodeWith sum text
  if kind.isSignature then return payload else throw (.unsuitable .signature text)

def Signature.ofBytesWith (data : Bytes) : Except Error String :=
  if data.length = 64 then encodeWith sum .genericSignature data
  else if data.length = 96 then encodeWith sum .bls12381Signature data
  else .error (.signatureLength data.length)

/-! ### Chains and rollups -/

def ChainId.toBytesWith (text : String) : Except Error Bytes :=
  decodeKindWith sum .chainId text

def ChainId.ofBytesWith (data : Bytes) : Except Error String :=
  encodeWith sum .chainId data

/-- The bytes of an address on a rollup, which is a hash of one kind. -/
def RollupAddress.toBytesWith (text : String) : Except Error Bytes :=
  decodeKindWith sum .bls12381PublicKeyHash text

def RollupAddress.ofBytesWith (data : Bytes) : Except Error String :=
  if data.length = 20 then encodeWith sum .bls12381PublicKeyHash data
  else .error (.wrongLength .rollupAddress 20 data.length)

end Micheline.Identifier
