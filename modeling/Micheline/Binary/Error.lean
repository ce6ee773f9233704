/-
Micheline/Binary/Error.lean

Why bytes are no expression, or an expression has no bytes.
-/
import Micheline.Text.Hex

namespace Micheline.Binary

inductive Error where
  /-- The data ends before `needed` bytes could be read. -/
  | tooFewBytes (needed available : Nat)
  /-- No primitive has this code. -/
  | invalidKeyword (code : UInt8)
  /-- The primitive has no code. -/
  | unknownPrim (name : String)
  /-- No kind of expression has this tag. -/
  | unknownTag (tag : UInt8)
  /-- A text is not in UTF-8. -/
  | invalidString
  /-- Packed data begins with another byte than the mark. -/
  | invalidMark (byte : UInt8)
  /-- Bytes are left over after the one expression. -/
  | trailingBytes (count : Nat)
  /-- More levels than a reader goes down. -/
  | tooDeep (levels : Nat)
  /-- A length does not fit in four bytes. -/
  | lengthOverflow
  /-- The text that should hold the bytes is not hexadecimal. -/
  | invalidHex (cause : Hex.Error)
  deriving DecidableEq, Repr

/-- A byte as `0x` and two digits. -/
def byteText (byte : UInt8) : String :=
  "0x" ++ Hex.encode [byte]

def Error.message : Error → String
  | .tooFewBytes needed available =>
    "too few bytes: needed " ++ needed.repr ++ ", " ++ available.repr ++ " available"
  | .invalidKeyword code => "invalid primitive keyword code " ++ byteText code
  | .unknownPrim name => "unknown primitive " ++ Quoted.string name
  | .unknownTag tag => "unknown type code " ++ byteText tag
  | .invalidString => "string is not valid UTF-8"
  | .invalidMark byte => "invalid pack prefix " ++ byteText byte ++ ", expected 0x05"
  | .trailingBytes count => count.repr ++ " trailing byte(s) after value"
  | .tooDeep levels => "nesting deeper than " ++ levels.repr ++ " levels"
  | .lengthOverflow => "length does not fit into a 4-byte prefix"
  | .invalidHex cause => "invalid hex: " ++ cause.message

end Micheline.Binary
