/-
Micheline/Node/Annot.lean

Annotations name things: `%` a field, `:` a type, `@` a variable.  Only well-formed
annotations name anything, and of several of one kind the first one does.
-/
import Micheline.Node.Basic

namespace Micheline.Annot

/-- What an annotation names. -/
inductive Sigil where
  | field
  | type
  | var
  deriving DecidableEq, Repr

/-- The character that leads an annotation. -/
def Sigil.char : Sigil → Char
  | .field => '%'
  | .type => ':'
  | .var => '@'

/-- The sigil that a character is. -/
def sigil? (c : Char) : Option Sigil :=
  if c = '%' then some .field
  else if c = ':' then some .type
  else if c = '@' then some .var
  else none

/-- Whether a character may stand in a name. -/
def isNameChar (c : Char) : Bool :=
  c.isAlphanum || c == '_' || c == '.' || c == '%' || c == '@'

/-- The sigil and the name of a well-formed annotation: a sigil, then one character of a
name or more. -/
def parts? (annot : String) : Option (Sigil × String) :=
  match annot.toList with
  | [] => none
  | c :: name => do
    let sigil ← sigil? c
    guard (!name.isEmpty && name.all isNameChar)
    return (sigil, String.ofList name)

def isValid (annot : String) : Bool :=
  (parts? annot).isSome

def valid (annots : List String) : List String :=
  annots.filter isValid

/-- The name that the first well-formed annotation with a sigil gives. -/
def name? (sigil : Sigil) (annots : List String) : Option String :=
  annots.findSome? fun annot =>
    match parts? annot with
    | some (s, name) => if s = sigil then some name else none
    | none => none

def fieldName? (annots : List String) : Option String := name? .field annots

def typeName? (annots : List String) : Option String := name? .type annots

def variableName? (annots : List String) : Option String := name? .var annots

end Micheline.Annot
