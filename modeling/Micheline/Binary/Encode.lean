/-
Micheline/Binary/Encode.lean

The bytes of an expression.  Each begins with a tag.

    00 integer        01 text          02 sequence       0a bytes
    03, 05, 07        an application to none, one or two arguments
    04, 06, 08        the same with annotations
    09                an application to any number of arguments

Texts, bytes, sequences, annotations and the arguments after tag 09 follow their length,
four bytes in big-endian order.  The annotations of an application are one text in which
blanks part them.
-/
import Micheline.Binary.Integer
import Micheline.Node.Basic
import Micheline.Node.Keyword

namespace Micheline.Binary

/-! ### Lengths -/

def fourBytes (n : Nat) : Bytes :=
  [UInt8.ofNat (n / 16777216), UInt8.ofNat (n / 65536), UInt8.ofNat (n / 256), UInt8.ofNat n]

/-- The number of lengths that fit in four bytes, `2 ^ 32`. -/
def lengthBound : Nat := 4294967296

/-- Bytes behind their length. -/
def withLength (body : Bytes) : Except Error Bytes :=
  if body.length < lengthBound then .ok (fourBytes body.length ++ body) else .error .lengthOverflow

/-! ### Tags -/

/-- The tag of an application to at most two arguments. -/
def primTag (args : Nat) (annotated : Bool) : UInt8 :=
  UInt8.ofNat (3 + 2 * args + if annotated then 1 else 0)

def annotText (annots : List String) : Bytes :=
  Utf8.encode (" ".intercalate annots)

/-- The annotations of an application to at most two arguments: nothing if there are none. -/
def annotsIfAny (annots : List String) : Except Error Bytes :=
  if annots.isEmpty then .ok [] else withLength (annotText annots)

/-! ### Expressions -/

mutual

def encode : Node → Except Error Bytes
  | .int value => .ok (0x00 :: Integer.encode value)
  | .string text => do return 0x01 :: (← withLength (Utf8.encode text))
  | .bytes data => do return 0x0a :: (← withLength data)
  | .seq items => do return 0x02 :: (← withLength (← encodeAll items))
  | .prim name args annots =>
    match Keyword.code? name with
    | none => .error (.unknownPrim name)
    | some code => do
      let body ← encodeAll args
      -- Up to two arguments stand without a length, and without annotations nothing follows them.
      if args.length ≤ 2 then
        let after ← annotsIfAny annots
        return primTag args.length (!annots.isEmpty) :: UInt8.ofNat code :: (body ++ after)
      else
        let body ← withLength body
        let after ← withLength (annotText annots)
        return 0x09 :: UInt8.ofNat code :: (body ++ after)

/-- The bytes of expressions one after another. -/
def encodeAll : List Node → Except Error Bytes
  | [] => .ok []
  | n :: ns => do
    let first ← encode n
    let rest ← encodeAll ns
    return first ++ rest

end

/-- The bytes of the expressions of a document: a single one stands for itself, several
are a sequence. -/
def encodeDocument : List Node → Except Error Bytes
  | [n] => encode n
  | ns => encode (.seq ns)

end Micheline.Binary
