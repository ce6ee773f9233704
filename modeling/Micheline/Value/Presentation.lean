/-
Micheline/Value/Presentation.lean

Values as trees for presentation.  A pair has its members as children, a choice the leaf
that it takes, a collection its elements; what can be shown in one line is shown as a text
or a flag.  A node may be marked as a change.
-/
import Micheline.Json.Record
import Micheline.Node.Michelson
import Micheline.Value.Project

namespace Micheline

/-! ### The tree -/

/-- What happened to a part of a value. -/
inductive Change where
  | create
  | update
  | delete
  deriving DecidableEq, Repr

namespace Change

def name : Change → String
  | .create => "create"
  | .update => "update"
  | .delete => "delete"

def ofName? (name : String) : Option Change :=
  [Change.create, .update, .delete].find? fun change => change.name == name

/-- The change that a document names; a name may also stand over null. -/
def ofJson? : Json → Option Change
  | .str name => ofName? name
  | .obj [(name, .null)] => ofName? name
  | _ => none

end Change

/-- A node of a presentation. -/
structure Presentation where
  prim : String
  kind : String
  name : Option String := none
  /-- What was shown before an update. -/
  before : Option Json := none
  change : Option Change := none
  value : Option Json := none
  children : List Presentation := []
  deriving Inhabited

namespace Presentation

/-- The node of a type, without a value. -/
def ofTy (ty : Ty) (kind : String) : Presentation :=
  { prim := ty.prim.name, kind, name := some ty.name }

/-- Renames a node. -/
def named (name : String) (p : Presentation) : Presentation :=
  { p with name := some name }

mutual

/-- Marks a node and all nodes below it. -/
def mark (change : Change) : Presentation → Presentation
  | ⟨prim, kind, name, before, _, value, children⟩ =>
    ⟨prim, kind, name, before, some change, value, markAll change children⟩

def markAll (change : Change) : List Presentation → List Presentation
  | [] => []
  | p :: ps => mark change p :: markAll change ps

end

mutual

/-- Whether a node or one below it is marked. -/
def hasChanges : Presentation → Bool
  | ⟨_, _, _, _, change, _, children⟩ => change.isSome || anyChanges children

def anyChanges : List Presentation → Bool
  | [] => false
  | p :: ps => hasChanges p || anyChanges ps

end

/-! ### As documents -/

def fieldNames : List String :=
  ["prim", "type", "name", "from", "diff_type", "value", "children"]

mutual

def toJson : Presentation → Json
  | ⟨prim, kind, name, before, change, value, children⟩ =>
    .obj (Json.present [
      ("prim", some (.str prim)),
      ("type", some (.str kind)),
      ("name", name.map .str),
      ("from", before),
      ("diff_type", change.map fun c => .str c.name),
      ("value", value),
      ("children", if children.isEmpty then none else some (.arr (toJsonAll children)))])

def toJsonAll : List Presentation → List Json
  | [] => []
  | p :: ps => toJson p :: toJsonAll ps

end

def ofJson? (json : Json) : Option Presentation := do
  if !json.isRecord fieldNames then none
  let field := fun name => json.field? fieldNames name
  let prim ← (← field "prim").text?
  let kind ← (← field "type").text?
  let name ← Json.optional? Json.text? (field "name")
  let before ← Json.optional? some (field "from")
  let change ← Json.optional? Change.ofJson? (field "diff_type")
  let value ← Json.optional? some (field "value")
  let children ← match _h : json.field? fieldNames "children" with
    | none => some []
    | some (.arr items) => items.attach.mapM fun ⟨item, _⟩ => ofJson? item
    | some _ => none
  return { prim, kind, name, before, change, value, children }
termination_by sizeOf json
decreasing_by
  have := Json.sizeOf_lt_of_field? _h
  have := List.sizeOf_lt_of_mem ‹item ∈ items›
  simp only [Json.arr.sizeOf_spec] at *
  omega

end Presentation

/-! ### Values in one line -/

/-- What is shown of a value that has no parts. -/
inductive Shown where
  | flag (value : Bool)
  | text (characters : String)
  deriving DecidableEq, Repr

def Shown.toJson : Shown → Json
  | .flag value => .bool value
  | .text characters => .str characters

namespace Ty

/-- What is shown of a value, if it has no parts. -/
def shown : Ty → Val → Except Error (Option Shown)
  | .bool _, .bool value => .ok (some (.flag value))
  | .scalar _ kind, .literal l => do return some (.text (← l.display kind.content))
  | .contract _ _, .literal l => do return some (.text (← l.display (.identifier .address)))
  | .lambda _ _ _, .code n | .saplingState _ _, .code n | .saplingTransaction _ _ _, .code n
    | .constant _ _, .code n => .ok (some (.text n.michelson))
  | .bool _, _ | .scalar _ _, _ | .contract _ _, _ | .lambda _ _ _, _ => .error .notSettled
  | _, _ => .ok none

/-- What the child of a key or an element is called. -/
def keyName : Ty → Val → Except Error String
  | .scalar _ kind, .literal l => l.display kind.content
  | .bool _, .bool value => .ok (if value then "true" else "false")
  | ty, v => do return (← ty.project .readable v).michelson

/-! ### Presentation -/

/-- What a pair is called: a record with names if one of its members has one. -/
def pairKind (members : List Typed) : String :=
  if members.any fun m => m.ty.isNamed then "namedtuple" else "tuple"

/-- The presentation of a value.  What counts as part of a pair or a choice around it gives
its children to that. -/
def present : Ty → Val → Except Error Presentation
  | .unit i, _ => .ok (Presentation.ofTy (.unit i) Prim.unit.name)
  | .never _, _ => .error (.unsupported .never .presentation)
  | .operation _, _ => .error (.unsupported .operation .presentation)
  | .pair i left right, .pair a b comb => do
    let first ← present left a
    let second ← present right b
    let ty := Ty.pair i left right
    return { Presentation.ofTy ty (pairKind (Typed.members ty (.pair a b comb))) with
      children := (if left.isInnerPair then first.children else [first])
        ++ (if right.isInnerPair then second.children else [second]) }
  | .or i left right, .left a => do
    let leaf ← present left a
    return { Presentation.ofTy (.or i left right) "or" with
      children := if left.isInnerOr then leaf.children else [leaf] }
  | .or i left right, .right b => do
    let leaf ← present right b
    return { Presentation.ofTy (.or i left right) "or" with
      children := if right.isInnerOr then leaf.children else [leaf] }
  | .option i inner, .none =>
    .ok { Presentation.ofTy (.option i inner) "option" with value := some (.str "None") }
  | .option i inner, .some a => do
    return { Presentation.ofTy (.option i inner) "option" with children := [← present inner a] }
  | .list i elem, .items values => do
    let children ← values.mapM (present elem)
    return { Presentation.ofTy (.list i elem) "list" with
      children := children.mapIdx fun index p => p.named (Decimal.ofNat index) }
  | .set i elem, .items values => do
    let children ← values.mapM (presentElement (keyName elem) (present elem))
    return { Presentation.ofTy (.set i elem) "set" with children }
  | .map i key value, .entries _ pairs => do
    let children ← pairs.mapM (presentEntry (keyName key) (present value))
    return { Presentation.ofTy (.map i key value) "map" with children }
  | .bigMap i key value, .entries pointer pairs => do
    let children ← pairs.mapM (presentEntry (keyName key) (present value))
    return { Presentation.ofTy (.bigMap i key value) "big_map" with
      -- entries are shown in place of the pointer
      value := if pairs.isEmpty then pointer.map fun p => .str (Decimal.ofInt p) else none
      children }
  | .ticket i content paired, v => do
    return { Presentation.ofTy (.ticket i content paired) "ticket" with
      children := (← present paired v).children }
  | .pair _ _ _, _ | .or _ _ _, _ | .option _ _, _ | .list _ _, _ | .set _ _, _ | .map _ _ _, _
    | .bigMap _ _ _, _ => .error .notSettled
  | ty, v => do
    return { Presentation.ofTy ty ty.prim.name with value := (← ty.shown v).map Shown.toJson }
where
  /-- The child of an element of a set. -/
  presentElement (name : Val → Except Error String) (present : Val → Except Error Presentation)
      (v : Val) : Except Error Presentation := do
    let child ← present v
    return child.named (← name v)
  /-- The child of an entry of a map. -/
  presentEntry (name : Val → Except Error String) (present : Val → Except Error Presentation)
      (pair : Val × Val) : Except Error Presentation := do
    let child ← present pair.2
    return child.named (← name pair.1)

end Ty

def Typed.present (t : Typed) : Except Error Presentation :=
  t.ty.present t.val

end Micheline
