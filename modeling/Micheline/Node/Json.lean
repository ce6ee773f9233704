/-
Micheline/Node/Json.lean

Expressions as documents.  A literal is an object whose one member `int`, `string` or
`bytes` is a text; an application has the member `prim` and, where they are not empty,
`args` and `annots`; a sequence is a list.  Reading looks for the members in that order
and ignores all others.

A whole document may hold several expressions: a list holds its items, an object itself.
-/
import Micheline.Json.Reader
import Micheline.Json.Writer
import Micheline.Node.Basic

namespace Micheline.Node

/-! ### Writing -/

/-- A member that lists something; left out if there is nothing to list. -/
def listMember (name : String) : List Json → List (String × Json)
  | [] => []
  | item :: items => [(name, .arr (item :: items))]

mutual

def toJson : Node → Json
  | .int value => .obj [("int", .str (Decimal.ofInt value))]
  | .string text => .obj [("string", .str text)]
  | .bytes data => .obj [("bytes", .str (Hex.encode data))]
  | .seq items => .arr (toJsonAll items)
  | .prim name args annots =>
    .obj (("prim", .str name)
      :: (listMember "args" (toJsonAll args) ++ listMember "annots" (annots.map .str)))

def toJsonAll : List Node → List Json
  | [] => []
  | n :: ns => toJson n :: toJsonAll ns

end

/-- The document of a list of expressions: a single one stands for itself. -/
def document : List Node → Json
  | [n] => toJson n
  | ns => .arr (toJsonAll ns)

/-! ### Reading -/

/-- Why a document holds no expression. -/
inductive Error where
  /-- The text is no document at all. -/
  | malformed
  /-- Neither an object nor a list. -/
  | noExpression (json : Json)
  /-- An object without any of the four members that say what it is. -/
  | noForm (json : Json)
  /-- A member that should be a text. -/
  | notText (member : String) (json : Json)
  /-- A member of the application of `owner` that should be a list. -/
  | notList (member owner : String) (json : Json)
  /-- A text that is no integer. -/
  | invalidInt (text : String)
  /-- A text that is not hexadecimal. -/
  | invalidBytes (cause : Hex.Error)

/-- The wording of an error, without what all of them begin with. -/
def Error.reason : Error → String
  | .malformed => "malformed document"
  | .noExpression json => "expected object or array, got " ++ json.compact
  | .noForm json => "object has none of int, string, bytes, prim: " ++ json.compact
  | .notText member json => member ++ " must be a string, got " ++ json.compact
  | .notList member owner json =>
    member ++ " of " ++ owner ++ " must be an array, got " ++ json.compact
  | .invalidInt text => "invalid int literal " ++ Quoted.string text
  | .invalidBytes cause => "invalid bytes literal: " ++ cause.message

def Error.message (e : Error) : String :=
  "invalid micheline JSON: " ++ e.reason

/-- The text of a member that must be one. -/
def textMember (name : String) : Json → Except Error String
  | .str text => .ok text
  | json => .error (.notText name json)

/-- The annotations that the member `annots` lists; null counts as none. -/
def annotsOfJson (owner : String) : Option Json → Except Error (List String)
  | none | some .null => .ok []
  | some (.arr items) => items.mapM (textMember "annots")
  | some json => .error (.notList "annots" owner json)

mutual

/-- The expression that a document holds. -/
def ofJson : Json → Except Error Node
  | .arr items => do return .seq (← ofJsonAll items)
  | .obj members =>
    match Members.find? "int" members with
    | some json => do
      let text ← textMember "int" json
      match Decimal.toInt? text with
      | some value => return .int value
      | none => throw (.invalidInt text)
    | none =>
    -- The first member that is there decides, and the others are not looked at.
    match Members.find? "string" members with
    | some json => do return .string (← textMember "string" json)
    | none =>
    match Members.find? "bytes" members with
    | some json => do
      let text ← textMember "bytes" json
      match Hex.decode text with
      | .ok data => return .bytes data
      | .error cause => throw (.invalidBytes cause)
    | none =>
    match Members.find? "prim" members with
    | some json => do
      let name ← textMember "prim" json
      let args ← argsOfMembers name members
      let annots ← annotsOfJson name (Members.find? "annots" members)
      return .prim name args annots
    | none => throw (.noForm (.obj members))
  | json => throw (.noExpression json)

def ofJsonAll : List Json → Except Error (List Node)
  | [] => .ok []
  | json :: rest => do
    let n ← ofJson json
    let ns ← ofJsonAll rest
    return n :: ns

/-- The arguments that the first member `args` lists. -/
def argsOfMembers (owner : String) : List (String × Json) → Except Error (List Node)
  | [] => .ok []
  | (name, value) :: rest =>
    if name = "args" then argsOfJson owner value else argsOfMembers owner rest

/-- The arguments that a document lists; null counts as none. -/
def argsOfJson (owner : String) : Json → Except Error (List Node)
  | .null => .ok []
  | .arr items => ofJsonAll items
  | json => .error (.notList "args" owner json)

end

/-- The expressions of a whole document. -/
def ofDocument : Json → Except Error (List Node)
  | .arr items => ofJsonAll items
  | .obj members => do return [← ofJson (.obj members)]
  | json => .error (.noExpression json)

/-- The expressions that the text of a document holds. -/
def parse (text : String) : Except Error (List Node) :=
  match Json.parse? text with
  | some json => ofDocument json
  | none => .error .malformed

end Micheline.Node
