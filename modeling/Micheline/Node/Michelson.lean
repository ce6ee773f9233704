/-
Micheline/Node/Michelson.lean

Expressions as Michelson source on one line.  Annotations stand before the arguments; an
argument that is itself an application is bracketed unless it is a bare primitive.
-/
import Micheline.Node.Basic

namespace Micheline.Node

/-- A character as it stands inside a string literal. -/
def escape : Char → List Char
  | '"' => ['\\', '"']
  | '\\' => ['\\', '\\']
  | '\n' => ['\\', 'n']
  | '\r' => ['\\', 'r']
  | '\t' => ['\\', 't']
  | c => [c]

def sourceString (text : String) : List Char :=
  ['"'] ++ text.toList.flatMap escape ++ ['"']

/-- Annotations, each after a blank. -/
def sourceAnnots (annots : List String) : List Char :=
  annots.flatMap fun annot => ' ' :: annot.toList

mutual

/-- The source of an expression; `wrap` holds of arguments. -/
def source (wrap : Bool) : Node → List Char
  | .int value => (Decimal.ofInt value).toList
  | .string text => sourceString text
  | .bytes data => '0' :: 'x' :: (Hex.encode data).toList
  | .seq [] => ['\x7b', '\x7d']
  | .seq (item :: items) => ['\x7b', ' '] ++ source false item ++ sourceItems items
  | .prim name args annots =>
    -- Only arguments are bracketed, and of these only what is more than a name.
    let body := name.toList ++ sourceAnnots annots ++ sourceArgs args
    if wrap && !(args.isEmpty && annots.isEmpty) then ['('] ++ body ++ [')'] else body

/-- The items after the first, and the closing brace. -/
def sourceItems : List Node → List Char
  | [] => [' ', '\x7d']
  | item :: items => [' ', ';', ' '] ++ source false item ++ sourceItems items

/-- The arguments, each after a blank. -/
def sourceArgs : List Node → List Char
  | [] => []
  | arg :: args => [' '] ++ source true arg ++ sourceArgs args

end

def michelson (n : Node) : String :=
  String.ofList (source false n)

end Micheline.Node
