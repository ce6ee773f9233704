/-
Micheline/Tree/Project.lean

The values of a tree as expressions, documents and bytes.
-/
import Micheline.Binary.Packed
import Micheline.Tree.Basic
import Micheline.Value.Project

namespace Micheline.Tree

def project (form : ValueForm) (t : Tree) : Except Error (List Node) := do
  (← t.settled).mapM (Typed.project form)

def toJson (form : ValueForm) (t : Tree) : Except Error Json := do
  return Node.document (← t.project form)

/-- The values in binary form, one after another. -/
def encode (t : Tree) : Except Error Bytes := do
  lift .binary (Binary.encodeDocument (← t.project .optimized))

/-- The values as packed data; several are packed as a sequence. -/
def pack (t : Tree) : Except Error Bytes := do
  match ← t.project .optimized with
  | [n] => lift .binary (Binary.pack n)
  | ns => lift .binary (Binary.pack (.seq ns))

end Micheline.Tree
