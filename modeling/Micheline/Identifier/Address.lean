/-
Micheline/Identifier/Address.lean

Addresses as bytes.  An implicit account is the tag 0, the tag of its curve and its hash;
a contract or a rollup is its tag, its hash and a zero byte.  The name of an entrypoint
other than `default` may stand behind the twenty-two bytes; in a text it follows a percent
sign.

What is said of addresses holds for any checksum of their texts.
-/
import Micheline.Identifier.Basic

namespace Micheline.Identifier.Address

/-- The entrypoint that stands for no entrypoint at all. -/
def defaultEntrypoint : String := "default"

def width : Nat := 22

/-- The characters before the first percent sign and, if there is one, those after it. -/
def splitChars : List Char → List Char × Option (List Char)
  | [] => ([], none)
  | c :: rest =>
    if c = '%' then ([], some rest)
    else
      let (before, after) := splitChars rest
      (c :: before, after)

/-- The address and the entrypoint in a text. -/
def split (text : String) : String × Option String :=
  let (address, entrypoint) := splitChars text.toList
  (String.ofList address, entrypoint.map String.ofList)

/-- The tag of a kind of address that is no account. -/
def tag? : Kind → Option UInt8
  | .contractHash => some 1
  | .txRollupHash => some 2
  | .smartRollupHash => some 3
  | _ => none

/-- The bytes of an address without its entrypoint; none if the kind is no address. -/
def body? (kind : Kind) (payload : Bytes) : Option Bytes :=
  match Kind.keyHashes.idxOf? kind with
  -- an account has the tag 0 and then the tag of its curve
  | some curve => some (0 :: UInt8.ofNat curve :: payload)
  | none => (tag? kind).map fun tag => tag :: (payload ++ [0])

/-- The bytes of an entrypoint: nothing for the default one. -/
def suffix : Option String → Bytes
  | none => []
  | some name => if name = "" ∨ name = defaultEntrypoint then [] else Utf8.encode name

def toBytesWith (sum : Base58.Checksum) (text : String) : Except Error Bytes :=
  let (address, entrypoint) := split text
  match decodeWith sum address with
  | .error cause => .error (.addressText text cause)
  | .ok (kind, payload) =>
    match body? kind payload with
    | some body => .ok (body ++ suffix entrypoint)
    | none => .error (.notAddress text kind)

/-- The text of the twenty-two bytes before the entrypoint, with a given checksum. -/
def ofBodyWith (sum : Base58.Checksum) : Bytes → Except Error String
  | [] => .error (.addressTooShort 0)
  | tag :: rest =>
    if tag = 0 then
      match rest with
      | [] => .error (.addressTooShort 1)
      | curve :: payload =>
        match Kind.keyHashes[curve.toNat]? with
        | some kind => encodeWith sum kind payload
        | none => .error (.unknownCurve curve)
    else
      -- The other tags stand for one kind each, and a byte of padding follows the hash.
      match [Kind.contractHash, .txRollupHash, .smartRollupHash][tag.toNat - 1]? with
      | none => .error (.unknownAddressTag tag)
      | some kind =>
        if rest.getLast? = some 0 then encodeWith sum kind rest.dropLast else .error .missingPadding

/-- The text of the twenty-two bytes before the entrypoint. -/
def ofBody : Bytes → Except Error String :=
  ofBodyWith Base58.doubleSha256

/-- The text of an address given by its bytes, with a given checksum. -/
def ofBytesWith (sum : Base58.Checksum) (data : Bytes) : Except Error String := do
  if data.length < width then throw (.addressTooShort data.length)
  let address ← ofBodyWith sum (data.take width)
  let suffix := data.drop width
  if suffix.isEmpty then return address
  match Utf8.decode? suffix with
  | none => throw .invalidEntrypoint
  | some name =>
    -- the default entrypoint is not written, though it may be read
    return if name = defaultEntrypoint then address else address ++ "%" ++ name

end Micheline.Identifier.Address
