/-
Micheline/Contract/Interface.lean

Interfaces of contracts.  A contract has an interface if for each entrypoint that this asks
for it has one of the same name whose type fits; where the interface gives no name, an
entrypoint of any name will do.
-/
import Micheline.Contract.Entrypoint

namespace Micheline

/-- What an interface asks for: entrypoints, each with the name it must have, or none, and the
document of its type. -/
structure Interface where
  tag : String
  entrypoints : List (String × String)
  deriving DecidableEq, Repr

/-- An interface whose types were read. -/
structure Requirement where
  tag : String
  entrypoints : List (String × Ty)
  deriving DecidableEq, Repr

namespace Interface

/-- The type in the text of a document, which holds exactly one. -/
def readType (document : String) : Except Error Ty := do
  match ← lift .node (Node.parse document) with
  | [n] => Ty.ofNode n
  | ns => throw (.different (.interfaceRoots ns.length))

def read (i : Interface) : Except Error Requirement := do
  let entrypoints ← i.entrypoints.mapM fun (name, document) => do
    return (name, ← readType document)
  return { tag := i.tag, entrypoints }

end Interface

/-- Whether entrypoints are all that a requirement asks for. -/
def Requirement.isMetBy (r : Requirement) (available : List (String × Ty)) : Bool :=
  r.entrypoints.all fun (name, expected) =>
    available.any fun (candidate, ty) =>
      (name.isEmpty || name == candidate) && ty.fits expected

end Micheline
