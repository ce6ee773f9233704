/-
Micheline/Ty/Basic.lean

Types.  Every type carries a number, which counts the types of a tree in the order in which
they are written, how deep it stands, and its well-formed annotations.  A ticket holds a
second type beside that of its content: the pair of the issuing contract, the content and
the amount that its values are written as.
-/
import Micheline.Node.Annot
import Micheline.Ty.Prim

namespace Micheline

/-- What every type carries. -/
structure Info where
  /-- The place in the order in which the types of a tree are written. -/
  id : Nat
  /-- How deep the type stands; a root stands at depth 0. -/
  depth : Nat
  /-- The well-formed annotations. -/
  annots : List String
  deriving DecidableEq, Repr

namespace Info

/-- The name of the field, or else of the type, if an annotation gives one. -/
def givenName? (i : Info) : Option String :=
  match Annot.fieldName? i.annots with
  | some name => some name
  | none => Annot.typeName? i.annots

/-- Whether an annotation names the type. -/
def isNamed (i : Info) : Bool :=
  i.givenName?.isSome

end Info

/-- A type. -/
inductive Ty where
  | unit (info : Info)
  | never (info : Info)
  | operation (info : Info)
  | bool (info : Info)
  | scalar (info : Info) (kind : Scalar)
  | contract (info : Info) (param : Ty)
  | pair (info : Info) (left right : Ty)
  | or (info : Info) (left right : Ty)
  | option (info : Info) (inner : Ty)
  | list (info : Info) (elem : Ty)
  | set (info : Info) (elem : Ty)
  | map (info : Info) (key value : Ty)
  | bigMap (info : Info) (key value : Ty)
  | lambda (info : Info) (param result : Ty)
  | ticket (info : Info) (content paired : Ty)
  | saplingState (info : Info) (memo : Int)
  | saplingTransaction (info : Info) (deprecated : Bool) (memo : Int)
  | constant (info : Info) (hash : String)
  deriving DecidableEq, Repr

namespace Ty

def info : Ty → Info
  | .unit i | .never i | .operation i | .bool i | .scalar i _ | .contract i _ | .pair i _ _
    | .or i _ _ | .option i _ | .list i _ | .set i _ | .map i _ _ | .bigMap i _ _
    | .lambda i _ _ | .ticket i _ _ | .saplingState i _ | .saplingTransaction i _ _
    | .constant i _ => i

def prim : Ty → Prim
  | .unit _ => .unit
  | .never _ => .never
  | .operation _ => .operation
  | .bool _ => .bool
  | .scalar _ kind => .scalar kind
  | .contract _ _ => .contract
  | .pair _ _ _ => .pair
  | .or _ _ _ => .or
  | .option _ _ => .option
  | .list _ _ => .list
  | .set _ _ => .set
  | .map _ _ _ => .map
  | .bigMap _ _ _ => .bigMap
  | .lambda _ _ _ => .lambda
  | .ticket _ _ _ => .ticket
  | .saplingState _ _ => .saplingState
  | .saplingTransaction _ deprecated _ =>
    if deprecated then .saplingTransactionDeprecated else .saplingTransaction
  | .constant _ _ => .constant

/-- The types a type is written with, in order. -/
def children : Ty → List Ty
  | .contract _ param => [param]
  | .pair _ left right | .or _ left right => [left, right]
  | .option _ inner => [inner]
  | .list _ elem | .set _ elem => [elem]
  | .map _ key value | .bigMap _ key value => [key, value]
  | .lambda _ param result => [param, result]
  | .ticket _ content _ => [content]
  | _ => []

/-- The name of a type: the one an annotation gives, or one made of its primitive and its
number. -/
def name (ty : Ty) : String :=
  ty.info.givenName?.getD ("@" ++ ty.prim.name ++ "_" ++ ty.info.id.repr)

/-- Whether an annotation names the type. -/
def isNamed (ty : Ty) : Bool :=
  ty.info.isNamed

def isUnit : Ty → Bool
  | .unit _ => true
  | _ => false

/-! ### Written form -/

/-- The expression that writes a type; all pairs are binary in it. -/
def node (ty : Ty) : Node :=
  let args := match ty with
    | .contract _ param => [param.node]
    | .pair _ left right | .or _ left right => [left.node, right.node]
    | .option _ inner => [inner.node]
    | .list _ elem | .set _ elem => [elem.node]
    | .map _ key value | .bigMap _ key value => [key.node, value.node]
    | .lambda _ param result => [param.node, result.node]
    | .ticket _ content _ => [content.node]
    | .saplingState _ memo | .saplingTransaction _ _ memo => [.int memo]
    | .constant _ hash => [.string hash]
    | _ => []
  .prim ty.prim.name args ty.info.annots

/-! ### Search -/

/-- The first type of a name, in the order in which types are written. -/
def find? (name : String) (ty : Ty) : Option Ty :=
  if ty.name = name then some ty
  else match ty with
    | .contract _ param => param.find? name
    | .pair _ left right | .or _ left right => (left.find? name).or (right.find? name)
    | .option _ inner => inner.find? name
    | .list _ elem | .set _ elem => elem.find? name
    | .map _ key value | .bigMap _ key value => (key.find? name).or (value.find? name)
    | .lambda _ param result => (param.find? name).or (result.find? name)
    | .ticket _ content _ => content.find? name
    | _ => none

end Ty

end Micheline
