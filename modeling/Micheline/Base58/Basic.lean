/-
Micheline/Base58/Basic.lean

Bytes as a number in base 58.  The bytes are read as one big-endian number, which is
written without leading zeros; each zero byte at the front is written as one `1`, the zero
of the alphabet.  So every byte string has one text and every text over the alphabet is
the text of one byte string.
-/
import Micheline.Base58.Carry
import Micheline.Text.Hex

namespace Micheline.Base58

/-! ### The alphabet -/

/-- The fifty-eight digits in ascending order. -/
def alphabet : List Char :=
  "123456789ABCDEFGHJKLMNPQRSTUVWXYZabcdefghijkmnopqrstuvwxyz".toList

/-- The digit of a value. -/
def digit (value : Nat) : Char :=
  alphabet.getD value '1'

def value? (c : Char) : Option Nat :=
  alphabet.idxOf? c

/-! ### Texts -/

/-- Why a text is not in base 58 or does not carry a good checksum. -/
inductive Error where
  /-- A byte of the text is no digit. -/
  | invalidCharacter (byte : UInt8) (text : String)
  /-- The bytes have no room for a checksum. -/
  | tooShort (text : String)
  /-- The checksum belongs to other bytes. -/
  | checksumMismatch (text : String)
  deriving DecidableEq, Repr

/-- The wording of an error; the offending byte is shown as the character with its code. -/
def Error.message : Error → String
  | .invalidCharacter byte text =>
    "invalid base58 string: invalid character " ++ Quoted.char (Char.ofNat byte.toNat)
      ++ " in " ++ text
  | .tooShort text => "invalid base58 string: " ++ text ++ " is too short"
  | .checksumMismatch text => "base58 checksum mismatch: " ++ text

def encode (data : Bytes) : String :=
  let zeros := data.takeWhile (· == 0)
  let digits := Conversion.ofBytes.places (data.dropWhile (· == 0))
  String.ofList (zeros.map (fun _ => '1') ++ digits.reverse.map fun d => digit d.toNat)

def values (text : String) : Bytes → Except Error (List Nat)
  | [] => .ok []
  | b :: rest =>
    match value? (Char.ofNat b.toNat) with
    | some value => do return value :: (← values text rest)
    | none => .error (.invalidCharacter b text)

def decode (text : String) : Except Error Bytes := do
  let values ← values text (Utf8.encode text)
  let zeros := values.takeWhile (· == 0)
  let bytes := Conversion.toBytes.places (values.map UInt8.ofNat)
  return zeros.map (fun _ => 0) ++ bytes.reverse

end Micheline.Base58
