/-
Micheline/Contract/Registry.lean

Registries of interfaces.  Types are read when they are asked for, so that a broken one
fails a search and not a registration.
-/
import Micheline.Contract.Standard

namespace Micheline

/-- Interfaces by their tags. -/
structure Registry where
  interfaces : List Interface := []
  /-- Whether all types have been read since the last registration. -/
  isRead : Bool := false
  deriving DecidableEq, Repr

namespace Registry

/-- Adds an interface, in place of the one with its tag if there is one. -/
def register (r : Registry) (new : Interface) : Registry :=
  { interfaces := place r.interfaces, isRead := false }
where
  /-- Puts the interface at the place of its tag. -/
  place : List Interface → List Interface
    | [] => [new]
    | known :: rest => if known.tag = new.tag then new :: rest else known :: place rest

def standard : Registry :=
  Standard.all.foldl register {}

def tags (r : Registry) : List String :=
  r.interfaces.map (·.tag)

/-- What all interfaces ask for. -/
def requirements (r : Registry) : Except Error (List Requirement) :=
  r.interfaces.mapM Interface.read

/-- The registry after a search: if all types could be read, they have been. -/
def searched (r : Registry) : Registry :=
  { r with isRead := r.isRead || r.requirements.isOk }

def find (r : Registry) (parameter : Tree) : Except Error (List String) := do
  let available := parameter.entrypoints
  return ((← r.requirements).filter (·.isMetBy available)).map (·.tag)

/-- Whether a parameter type has the interface of a tag; there may be none of that tag. -/
def implements (r : Registry) (parameter : Tree) (tag : String) : Except Error Bool := do
  let available := parameter.entrypoints
  match (← r.requirements).find? (·.tag == tag) with
  | some requirement => return requirement.isMetBy available
  | none => return false

/-- A registry in one line: its tags and whether its types have been read. -/
def describe (r : Registry) : String :=
  String.join ["InterfaceRegistry \x7b tags: [",
    ", ".intercalate (r.tags.map Quoted.string), "], parsed: ",
    if r.isRead then "true" else "false", " \x7d"]

end Registry

end Micheline
