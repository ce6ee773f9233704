/-
Micheline/Value/Literal.lean

Literals in their types.  An identifier may be written as its text or as its bytes and a
point in time as its text or as seconds; the binary form of such a literal is the bytes or
the seconds, the readable form the text.  Literals are ordered by their binary form.
-/
import Micheline.Error
import Micheline.Identifier.Role

namespace Micheline.Literal

/-! ### Acceptance -/

/-- Whether a literal is of a kind that a type may hold. -/
def isOf : Content → Literal → Bool
  | .integer, .int _ | .natural, .int _ | .text, .string _ | .bytes, .bytes _ | .blob, .bytes _
    | .field, .int _ | .field, .bytes _ | .time, .int _ | .time, .string _
    | .identifier _, .string _ | .identifier _, .bytes _ => true
  | _, _ => false

/-- The literal that an expression is, if a type with such contents may hold it. -/
def accept (prim : Prim) (content : Content) (n : Node) : Except Error Literal :=
  match n.literal? with
  | some l =>
    if l.isOf content then
      match content, l with
      | .natural, .int value =>
        if value < 0 then .error (.negative prim value) else .ok l
      | _, _ => .ok l
    else .error (.mismatch (prim.name ++ " literal") n.describe)
  | none => .error (.mismatch (prim.name ++ " literal") n.describe)

/-! ### Forms -/

/-- The seconds that a literal of a timestamp stands for. -/
def seconds : Literal → Except Error Int
  | .int value => .ok value
  | .string text => lift (.timestamp text) (Calendar.Timestamp.parse text)
  | .bytes _ => .error (.mismatch "timestamp literal" "bytes")

/-- The binary form. -/
def optimize (content : Content) (l : Literal) : Except Error Literal :=
  match l, content with
  | .string text, .time => do return .int (← seconds (.string text))
  | .string text, .identifier role => do return .bytes (← lift .identifier (role.toBytes text))
  | l, _ => .ok l

/-- The readable form.  A point in time that has no text stays as it is. -/
def readable (content : Content) (l : Literal) : Except Error Literal :=
  match l, content with
  | .int value, .time => .ok (((Calendar.Timestamp.text? value).map .string).getD l)
  | .bytes data, .identifier role => do return .string (← lift .identifier (role.ofBytes data))
  | l, _ => .ok l

/-- The characters of the readable form. -/
def display (content : Content) (l : Literal) : Except Error String := do
  return (← readable content l).text

/-! ### Order -/

/-- The order of two literals of one type. -/
def order (prim : Prim) (content : Content) (a b : Literal) : Except Error Ordering :=
  match content with
  | .time => do
    -- Texts and numbers of seconds are compared as points in time.
    let x ← seconds a
    let y ← seconds b
    return compare x y
  | .identifier _ => do
    -- Identifiers are compared by their bytes, whether they are texts or not.
    let x ← optimize content a
    let y ← optimize content b
    match x, y with
    | .bytes x, .bytes y => return compare x y
    | _, _ => throw (.notComparable prim prim)
  | .blob | .field => .error (.notComparable prim prim)
  | _ =>
    match a, b with
    | .int x, .int y => .ok (compare x y)
    | .string x, .string y => .ok (compare (Utf8.encode x) (Utf8.encode y))
    | .bytes x, .bytes y => .ok (compare x y)
    | _, _ => .error (.notComparable prim prim)

end Micheline.Literal
