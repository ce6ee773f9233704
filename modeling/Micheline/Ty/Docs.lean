/-
Micheline/Ty/Docs.lean

Documentation of types: a list of named definitions.  Each pair and each choice has one,
except those that count as part of the one around them; other types refer to it by its
name behind a dollar sign.  A definition stands before those of its parts.
-/
import Micheline.Json.Basic
import Micheline.Text.Quoted
import Micheline.Ty.Layout

namespace Micheline

/-- A named type: its description and, for pairs and choices, the description of each
member or leaf. -/
structure Typedef where
  name : String
  description : String
  parts : List (String × String)
  deriving DecidableEq, Repr

def Typedef.toJson (d : Typedef) : Json :=
  let parts := d.parts.map fun (key, value) => Json.obj [("key", .str key), ("value", .str value)]
  .obj ([("name", .str d.name), ("type", .str d.description)]
    ++ if parts.isEmpty then [] else [("args", .arr parts)])

namespace Ty

/-- Writes definitions behind those written so far. -/
abbrev Writer := StateM (List Typedef)

/-- Writes a definition: takes the next place, writes what its parts refer to behind that, and
fills the parts in.  Returns the reference to the definition. -/
def define (name description : String) (parts : Writer (List (String × String))) :
    Writer String := do
  -- the place is kept, so that the definition stands before those of its parts
  let place := (← get).length
  modify (· ++ [⟨name, description, []⟩])
  let parts ← parts
  modify (·.modify place fun d => { d with parts })
  return "$" ++ name

/-- Writes the definitions that a type refers to, and returns its description. -/
def describe (ty : Ty) : Writer String :=
  match ty with
  | .pair i l r =>
    define (Ty.pair i l r).name "object" <|
      (Ty.pair i l r).members.attach.mapM fun ⟨m, _⟩ => return (m.name, ← describe m)
  | .or i l r =>
    define (Ty.or i l r).name "or" <|
      (Ty.or i l r).leaves.attach.mapM fun ⟨leaf, _⟩ =>
        return (leaf.2.name, ← describe leaf.2)
  | .contract _ param => return "contract(" ++ (← describe param) ++ ")"
  | .option _ inner => return "option(" ++ (← describe inner) ++ ")"
  | .list _ elem => return "list(" ++ (← describe elem) ++ ")"
  | .set _ elem => return "set(" ++ (← describe elem) ++ ")"
  | .map _ key value => return "map(" ++ (← describe key) ++ ", " ++ (← describe value) ++ ")"
  | .bigMap _ key value =>
    return "big_map(" ++ (← describe key) ++ ", " ++ (← describe value) ++ ")"
  | .lambda _ param result =>
    return "lambda(" ++ (← describe param) ++ ", " ++ (← describe result) ++ ")"
  | .ticket _ content _ => return "ticket(" ++ (← describe content) ++ ")"
  | .saplingState _ memo => return "sapling_state(" ++ Decimal.ofInt memo ++ ")"
  | .saplingTransaction _ _ memo => return ty.prim.name ++ "(" ++ Decimal.ofInt memo ++ ")"
  | .constant _ hash => return "constant(" ++ Quoted.string hash ++ ")"
  | ty => return ty.prim.name
termination_by ty.size
decreasing_by
  · exact size_lt_of_mem_members ‹_›
  · exact size_lt_of_mem_leaves ‹_›
  all_goals simp only [size]; omega

/-- The documentation of a type: the definitions that it refers to, behind one of its own if the
type is not among them. -/
def docs (ty : Ty) : List Typedef :=
  let (description, written) := (describe ty).run []
  if description = "$" ++ ty.name then written else ⟨ty.name, description, []⟩ :: written

end Ty

end Micheline
