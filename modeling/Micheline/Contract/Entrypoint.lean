/-
Micheline/Contract/Entrypoint.lean

Entrypoints.  Where the parameter of a contract is a choice, each of its leaves is an
entrypoint under its name; any other parameter is the default entrypoint.
-/
import Micheline.Identifier.Address
import Micheline.Tree.Basic
import Micheline.Value.Project

namespace Micheline

/-- The name of the entrypoint that takes a whole parameter. -/
def defaultEntrypoint : String := Identifier.Address.defaultEntrypoint

namespace Ty

/-- The entrypoints of a parameter type. -/
def entrypoints (root : Ty) : List (String × Ty) :=
  if root.isOr then root.leaves.map fun (_, leaf) => (leaf.name, leaf)
  else [(defaultEntrypoint, root)]

end Ty

structure EntrypointDoc where
  name : String
  typedefs : List Typedef
  deriving DecidableEq, Repr

def EntrypointDoc.toJson (d : EntrypointDoc) : Json :=
  .obj [("name", .str d.name), ("typedef", .arr (d.typedefs.map Typedef.toJson))]

/-- The call of an entrypoint with an argument. -/
structure Call where
  entrypoint : String
  argument : Node
  deriving DecidableEq, Repr

def Call.toJson (c : Call) : Json :=
  .obj [("entrypoint", .str c.entrypoint), ("value", c.argument.toJson)]

namespace Tree

/-- The entrypoints of a parameter type; a tree with several roots has none. -/
def entrypoints (t : Tree) : List (String × Ty) :=
  match t.roots with
  | [root] => root.entrypoints
  | _ => []

def entrypointNames (t : Tree) : List String :=
  t.entrypoints.map (·.1)

/-- The type of the first entrypoint of a name. -/
def entrypoint? (t : Tree) (name : String) : Option Ty :=
  (t.entrypoints.find? fun e => e.1 == name).map (·.2)

def entrypointDocs (t : Tree) : List EntrypointDoc :=
  t.entrypoints.map fun (name, ty) => { name, typedefs := ty.docs }

/-- The call of an entrypoint that the value makes.  The default entrypoint takes the whole
value; another one takes the leaf, which must be the one of its name. -/
def call (t : Tree) (entrypoint : String) : Except Error Call := do
  match t.current with
  | [root] =>
    if !t.isSettled then throw .notSettled
    -- The whole value, whatever leaf it takes.
    if entrypoint = defaultEntrypoint ∨ !root.ty.isOr then
      return { entrypoint := defaultEntrypoint, argument := ← root.project .preserve }
    match Typed.activeLeaf? root.ty root.val with
    | none => throw .notSettled
    | some (_, leaf) =>
      if leaf.ty.name ≠ entrypoint then
        throw (.different (.entrypoint leaf.ty.name entrypoint))
      return { entrypoint, argument := ← leaf.project .preserve }
  | roots => throw (.different (.parameterRoots roots.length))

end Tree

end Micheline
