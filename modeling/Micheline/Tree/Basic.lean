/-
Micheline/Tree/Basic.lean

Trees: types side by side as the roots of one tree, numbered through, and the values that
were settled on them, if any were.
-/
import Micheline.Ty.Docs
import Micheline.Ty.Matching
import Micheline.Ty.Typing
import Micheline.Value.Order
import Micheline.Value.Outline

namespace Micheline

/-- A tree of types with or without values; where there are values, each root has one. -/
structure Tree where
  roots : List Ty
  values : Option (List Val) := none
  deriving DecidableEq, Repr

namespace Tree

/-! ### Types -/

/-- The tree of the types that expressions write, without values. -/
def ofNodes (ns : List Node) : Except Error Tree := do
  return { roots := ← Ty.ofNodes ns }

def ofJson (json : Json) : Except Error Tree := do
  ofNodes (← lift .node (Node.ofDocument json))

def parse (text : String) : Except Error Tree := do
  ofNodes (← lift .node (Node.parse text))

def typeNodes (t : Tree) : List Node :=
  t.roots.map Ty.node

def typeJson (t : Tree) : Json :=
  Node.document t.typeNodes

/-- Whether two trees have the same types but for annotations. -/
def sameShape (s t : Tree) : Bool :=
  s.roots.length == t.roots.length && (s.roots.zip t.roots).all fun (a, b) => a.sameShape b

/-- For each root and the root of another tree at the same place, whether they fit. -/
def fits (s t : Tree) : List Bool :=
  List.zipWith Ty.fits s.roots t.roots

def find? (t : Tree) (name : String) : Option Ty :=
  t.roots.findSome? (Ty.find? name)

def docs (t : Tree) : List Typedef :=
  t.roots.flatMap Ty.docs

/-! ### Values -/

def isSettled (t : Tree) : Bool :=
  t.values.isSome

/-- The roots with their values, blank ones if there are none. -/
def current (t : Tree) : List Typed :=
  List.zipWith Typed.mk t.roots (t.values.getD (t.roots.map Ty.blank))

/-- The roots with their values, which must be there. -/
def settled (t : Tree) : Except Error (List Typed) :=
  if t.isSettled then .ok t.current else .error .notSettled

/-- The lines of an outline, each with the line break after it. -/
def outline (t : Tree) : String :=
  String.join (t.current.flatMap fun r =>
    (r.ty.outline r.ty.info.depth r.val).map (· ++ "\n"))

/-- The order of two lists of values, by the first that differ. -/
def compareRoots : List (Typed × Typed) → Except Error Ordering
  | [] => .ok .eq
  | (a, b) :: rest => do
    match ← a.compare b with
    | .eq => compareRoots rest
    | order => return order

def compare (s t : Tree) : Except Error Ordering := do
  let mine ← s.settled
  let theirs ← t.settled
  if mine.length ≠ theirs.length then
    throw (.different (.roots mine.length theirs.length))
  compareRoots (mine.zip theirs)

end Tree

end Micheline
