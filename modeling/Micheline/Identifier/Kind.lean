/-
Micheline/Identifier/Kind.lean

The kinds of chain identifiers.  An identifier is written in checked base 58; the bytes in
front of its payload are chosen so that all texts of a kind begin alike.
-/
import Micheline.Text.Utf8

namespace Micheline.Identifier

/-- What an identifier identifies. -/
inductive Kind where
  | blockHash
  | operationHash
  | operationListHash
  | operationListListHash
  | protocolHash
  | contextHash
  | ed25519PublicKeyHash
  | secp256k1PublicKeyHash
  | p256PublicKeyHash
  | bls12381PublicKeyHash
  | contractHash
  | txRollupHash
  | smartRollupHash
  | ed25519PublicKey
  | secp256k1PublicKey
  | p256PublicKey
  | bls12381PublicKey
  | ed25519Signature
  | secp256k1Signature
  | p256Signature
  | genericSignature
  | bls12381Signature
  | chainId
  | scriptExpr
  | bakerHash
  deriving DecidableEq, Repr

namespace Kind

/-- All kinds, in the order in which a text is matched against them. -/
def all : List Kind := [
  .blockHash, .operationHash, .operationListHash, .operationListListHash, .protocolHash,
  .contextHash, .ed25519PublicKeyHash, .secp256k1PublicKeyHash, .p256PublicKeyHash,
  .bls12381PublicKeyHash, .contractHash, .txRollupHash, .smartRollupHash, .ed25519PublicKey,
  .secp256k1PublicKey, .p256PublicKey, .bls12381PublicKey, .ed25519Signature,
  .secp256k1Signature, .p256Signature, .genericSignature, .bls12381Signature, .chainId,
  .scriptExpr, .bakerHash]

/-- What the texts of a kind begin with. -/
def lead : Kind → String
  | .blockHash => "B"
  | .operationHash => "o"
  | .operationListHash => "Lo"
  | .operationListListHash => "LLo"
  | .protocolHash => "P"
  | .contextHash => "Co"
  | .ed25519PublicKeyHash => "tz1"
  | .secp256k1PublicKeyHash => "tz2"
  | .p256PublicKeyHash => "tz3"
  | .bls12381PublicKeyHash => "tz4"
  | .contractHash => "KT1"
  | .txRollupHash => "txr1"
  | .smartRollupHash => "sr1"
  | .ed25519PublicKey => "edpk"
  | .secp256k1PublicKey => "sppk"
  | .p256PublicKey => "p2pk"
  | .bls12381PublicKey => "BLpk"
  | .ed25519Signature => "edsig"
  | .secp256k1Signature => "spsig1"
  | .p256Signature => "p2sig"
  | .genericSignature => "sig"
  | .bls12381Signature => "BLsig"
  | .chainId => "Net"
  | .scriptExpr => "expr"
  | .bakerHash => "SG1"

/-- The bytes in front of the payload. -/
def version : Kind → Bytes
  | .blockHash => [1, 52]
  | .operationHash => [5, 116]
  | .operationListHash => [133, 233]
  | .operationListListHash => [29, 159, 109]
  | .protocolHash => [2, 170]
  | .contextHash => [79, 199]
  | .ed25519PublicKeyHash => [6, 161, 159]
  | .secp256k1PublicKeyHash => [6, 161, 161]
  | .p256PublicKeyHash => [6, 161, 164]
  | .bls12381PublicKeyHash => [6, 161, 166]
  | .contractHash => [2, 90, 121]
  | .txRollupHash => [1, 128, 120, 31]
  | .smartRollupHash => [6, 124, 117]
  | .ed25519PublicKey => [13, 15, 37, 217]
  | .secp256k1PublicKey => [3, 254, 226, 86]
  | .p256PublicKey => [3, 178, 139, 127]
  | .bls12381PublicKey => [6, 149, 135, 204]
  | .ed25519Signature => [9, 245, 205, 134, 18]
  | .secp256k1Signature => [13, 115, 101, 19, 63]
  | .p256Signature => [54, 240, 44, 52]
  | .genericSignature => [4, 130, 43]
  | .bls12381Signature => [40, 171, 64, 207]
  | .chainId => [87, 82, 0]
  | .scriptExpr => [13, 44, 64, 27]
  | .bakerHash => [3, 56, 226]

def payloadLength : Kind → Nat
  | .ed25519PublicKeyHash | .secp256k1PublicKeyHash | .p256PublicKeyHash
    | .bls12381PublicKeyHash | .contractHash | .txRollupHash | .smartRollupHash => 20
  | .secp256k1PublicKey | .p256PublicKey => 33
  | .bls12381PublicKey => 48
  | .ed25519Signature | .secp256k1Signature | .p256Signature | .genericSignature => 64
  | .bls12381Signature => 96
  | .chainId => 4
  | .bakerHash => 20
  | _ => 32

theorem mem_all (k : Kind) : k ∈ all := by
  cases k <;> decide

/-- Whether `data` is a payload of the kind behind its version bytes. -/
def fits (k : Kind) (data : Bytes) : Bool :=
  k.version.isPrefixOf data && data.length == k.version.length + k.payloadLength

/-- A public key hash: the kinds that share the tags of curves, in the order of the tags. -/
def keyHashes : List Kind :=
  [.ed25519PublicKeyHash, .secp256k1PublicKeyHash, .p256PublicKeyHash, .bls12381PublicKeyHash]

/-- A public key, in the order of the tags of curves. -/
def publicKeys : List Kind :=
  [.ed25519PublicKey, .secp256k1PublicKey, .p256PublicKey, .bls12381PublicKey]

def isSignature : Kind → Bool
  | .ed25519Signature | .secp256k1Signature | .p256Signature | .genericSignature
    | .bls12381Signature => true
  | _ => false

end Kind

end Micheline.Identifier
