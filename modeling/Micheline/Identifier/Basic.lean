/-
Micheline/Identifier/Basic.lean

Identifiers in checked base 58: the version bytes of a kind, then its payload.  Reading
takes the first kind that fits; no two kinds fit the same data.
-/
import Micheline.Base58.Checked
import Micheline.Identifier.Error

namespace Micheline.Identifier

/-- The text of a payload of a kind, with a given checksum. -/
def encodeWith (sum : Base58.Checksum) (kind : Kind) (payload : Bytes) : Except Error String :=
  if payload.length = kind.payloadLength then
    .ok (Base58.encodeChecked sum (kind.version ++ payload))
  else .error (.payloadLength kind payload.length)

/-- The kind and the payload of a text, with a given checksum. -/
def decodeWith (sum : Base58.Checksum) (text : String) : Except Error (Kind × Bytes) :=
  match Base58.decodeChecked sum text with
  | .error cause => .error (.base58 cause)
  | .ok data =>
    match Kind.all.find? (·.fits data) with
    | some kind => .ok (kind, data.drop kind.version.length)
    | none => .error (.unknownVersion text)

def encode (kind : Kind) (payload : Bytes) : Except Error String :=
  encodeWith Base58.doubleSha256 kind payload

def decode (text : String) : Except Error (Kind × Bytes) :=
  decodeWith Base58.doubleSha256 text

/-- The payload of a text that must be of one kind, with a given checksum. -/
def decodeKindWith (sum : Base58.Checksum) (kind : Kind) (text : String) : Except Error Bytes := do
  let (found, payload) ← decodeWith sum text
  if found = kind then return payload else throw (.unexpectedKind text kind found)

def decodeKind (kind : Kind) (text : String) : Except Error Bytes :=
  decodeKindWith Base58.doubleSha256 kind text

end Micheline.Identifier
