/-
Micheline/Tree/Change.lean

The values of a tree for presentation, alone or beside earlier ones, and updates of the big
maps in them.
-/
import Micheline.Tree.Basic
import Micheline.Value.BigMap
import Micheline.Value.Difference

namespace Micheline.Tree

/-! ### Presentation -/

def present (t : Tree) : Except Error (List Presentation) := do
  (← t.settled).mapM Typed.present

/-- The presentations of values that were not there before. -/
def created (t : Tree) : Except Error (List Presentation) := do
  (← t.settled).mapM fun r => r.ty.created r.val

/-- The presentations of the values beside earlier ones. -/
def diff (t previous : Tree) : Except Error (List Presentation) := do
  let new ← t.settled
  let old ← previous.settled
  if new.length ≠ old.length then throw (.different (.roots new.length old.length))
  (new.zip old).mapM fun (a, b) => a.diff b

/-! ### Big maps -/

/-- The tree after updates of its big maps, and how many of the updates were for one. -/
def enrich (updates : List BigMapUpdate) (t : Tree) : Except Error (Tree × Nat) := do
  let done ← (← t.settled).mapM fun r => r.ty.enrich updates r.val
  return ({ t with values := some (done.map (·.1)) }, Ty.total (done.map (·.2)))

def pointers (t : Tree) : List Int :=
  t.current.flatMap fun r => r.ty.pointers r.val

end Micheline.Tree
