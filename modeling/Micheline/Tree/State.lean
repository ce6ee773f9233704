/-
Micheline/Tree/State.lean

Trees whose values change, one change after another.  The tree with the new values is made of
the one at hand and put in its place at the end.
-/
import Micheline.Action
import Micheline.Form.Submission
import Micheline.Tree.Change

namespace Micheline.Tree

/-- A change of the values of a tree. -/
inductive Change where
  | settle (ns : List Node)
  | settleBytes (data : Bytes)
  | settlePacked (data : Bytes)
  | submit (data : Json)
  | enrich (updates : List BigMapUpdate)

/-- Settles the tree. -/
def settling (settled : Tree → Except Error Tree) : Action Tree Unit :=
  .replace fun t => do return ((), ← settled t)

/-- Updates the big maps of the tree.  Returns how many of the updates were for one. -/
def enriching (updates : List BigMapUpdate) : Action Tree Nat :=
  .replace fun t => do return (← t.enrich updates).swap

/-- The tree after a change, also if the change fails. -/
def step (t : Tree) : Change → Tree
  | .settle ns => ((settling fun t => t.settle ns).outcome t).2
  | .settleBytes data => ((settling fun t => t.settleBytes data).outcome t).2
  | .settlePacked data => ((settling fun t => t.settlePacked data).outcome t).2
  | .submit data => ((settling fun t => t.submit data).outcome t).2
  | .enrich updates => ((enriching updates).outcome t).2

end Micheline.Tree
