/-
Micheline/Tree/Settle.lean

Settling values on a tree.  As a rule there is one expression for each root.  A single root
may take several: a pair takes them as its members, and a collection or a piece of code as
its items, if the one expression there is could not be all of it.
-/
import Micheline.Binary.Packed
import Micheline.Tree.Basic
import Micheline.Value.Settle

namespace Micheline

namespace Ty

/-- Whether a list of expressions may be the items of a value. -/
def takesItems : Ty → Bool
  | .list _ _ | .set _ _ | .map _ _ _ | .bigMap _ _ _ | .lambda _ _ _ => true
  | _ => false

def isBigMap : Ty → Bool
  | .bigMap _ _ _ => true
  | _ => false

/-- Whether a single expression is a whole value rather than the only item of one. -/
def takesWhole (ty : Ty) (n : Node) : Bool :=
  !ty.takesItems ||
    match n with
    | .seq _ => true
    | .int _ => ty.isBigMap
    | .prim name _ _ => name == "Lambda_rec"
    | _ => false

end Ty

namespace Tree

/-- One expression for each root, made of the expressions that are given. -/
def arrange (roots : List Ty) (ns : List Node) : Except Error (List Node) :=
  match roots with
  | [root] =>
    -- one expression that may be the whole value is
    if ns.length = 1 ∧ ns.all root.takesWhole then .ok ns
    -- otherwise the expressions are the members or the items of the value
    else if (root.isPair ∧ 1 < ns.length) ∨ root.takesItems then .ok [.seq ns]
    else .error (.different (.rootsAndValues 1 ns.length))
  | roots =>
    if roots.length = ns.length then .ok ns
    else .error (.different (.rootsAndValues roots.length ns.length))

/-- The tree with the values that expressions write, in place of those it has. -/
def settle (t : Tree) (ns : List Node) : Except Error Tree := do
  let arranged ← arrange t.roots ns
  let values ← (t.roots.zip arranged).mapM fun (root, n) => root.settle n
  return { t with values := some values }

def settleJson (t : Tree) (json : Json) : Except Error Tree := do
  t.settle (← lift .node (Node.ofDocument json))

/-- Settles the expressions in the text of a document. -/
def settleText (t : Tree) (text : String) : Except Error Tree := do
  t.settle (← lift .node (Node.parse text))

def settleBytes (t : Tree) (data : Bytes) : Except Error Tree := do
  t.settle (← lift .binary (Binary.decode data))

def settlePacked (t : Tree) (data : Bytes) : Except Error Tree := do
  t.settle [← lift .binary (Binary.unpack data)]

end Tree

end Micheline
