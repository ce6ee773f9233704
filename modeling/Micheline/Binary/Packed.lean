/-
Micheline/Binary/Packed.lean

Packed data: the bytes of one expression behind a mark.
-/
import Micheline.Binary.Decode

namespace Micheline.Binary

/-- The byte that packed data begins with. -/
def packMark : UInt8 := 0x05

def pack (n : Node) : Except Error Bytes := do
  return packMark :: (← encode n)

def unpack : Bytes → Except Error Node
  | [] => .error (.tooFewBytes 1 0)
  | b :: body => if b = packMark then decodeOne body else .error (.invalidMark b)

/-- The expression in packed data that a text writes in hexadecimal. -/
def unpackHex (text : String) : Except Error Node := do
  unpack (← ofHex text)

end Micheline.Binary
