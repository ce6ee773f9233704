/-
Micheline/Form/Schema.lean

Schemas of the forms in which values are entered.  A pair is an object with a property for
each member that is not the unit; an option or a choice has a branch for each of its cases,
told apart by a property of its own; a collection is an array; literals are texts, numbers
and flags; code is a text that holds expressions.
-/
import Micheline.Error
import Micheline.Json.Record
import Micheline.Tree.Basic

namespace Micheline

structure Schema where
  kind : Option String := none
  title : Option String := none
  prim : Option String := none
  default : Option Json := none
  minLength : Option Nat := none
  maxLength : Option Nat := none
  format : Option String := none
  constant : Option Json := none
  properties : List (String × Schema) := []
  oneOf : List Schema := []
  required : List String := []
  items : Option Schema := none
  itemTitle : Option String := none

namespace Schema

instance : Inhabited Schema := ⟨{}⟩

/-! ### As documents -/

def fieldNames : List String :=
  ["type", "title", "prim", "default", "minLength", "maxLength", "format", "const", "properties",
    "oneOf", "required", "items", "x-itemTitle"]

/-- A list that is left out if it is empty. -/
def unlessEmpty {α : Type} (make : List α → Json) : List α → Option Json
  | [] => none
  | x :: xs => some (make (x :: xs))

mutual

def toJson : Schema → Json
  | ⟨kind, title, prim, default, minLength, maxLength, format, constant, properties, oneOf,
      required, items, itemTitle⟩ =>
    .obj (Json.present [
      ("type", kind.map .str),
      ("title", title.map .str),
      ("prim", prim.map .str),
      ("default", default),
      ("minLength", minLength.map .ofNat),
      ("maxLength", maxLength.map .ofNat),
      ("format", format.map .str),
      ("const", constant),
      ("properties", unlessEmpty .obj (propertiesToJson properties)),
      ("oneOf", unlessEmpty .arr (allToJson oneOf)),
      ("required", unlessEmpty .arr (required.map .str)),
      ("items", itemsToJson items),
      ("x-itemTitle", itemTitle.map .str)])

def propertiesToJson : List (String × Schema) → List (String × Json)
  | [] => []
  | (name, schema) :: rest => (name, toJson schema) :: propertiesToJson rest

def allToJson : List Schema → List Json
  | [] => []
  | schema :: rest => toJson schema :: allToJson rest

/-- The document of a schema, if there is one. -/
def itemsToJson : Option Schema → Option Json
  | none => none
  | some schema => some (toJson schema)

end

def ofJson? (json : Json) : Option Schema := do
  if !json.isRecord fieldNames then none
  let text := fun name => Json.optional? Json.text? (json.field? fieldNames name)
  let size := fun name => Json.optional? Json.nat? (json.field? fieldNames name)
  let any := fun name => Json.optional? some (json.field? fieldNames name)
  -- The members are smaller than the document, which is what ends the recursion.
  let properties ← match _h : json.field? fieldNames "properties" with
    | none => some []
    | some (.obj members) => members.attach.mapM fun ⟨(name, member), _⟩ => do
      return (name, ← ofJson? member)
    | some _ => none
  let oneOf ← match _h : json.field? fieldNames "oneOf" with
    | none => some []
    | some (.arr branches) => branches.attach.mapM fun ⟨branch, _⟩ => ofJson? branch
    | some _ => none
  let required ← match json.field? fieldNames "required" with
    | none => some []
    | some json => (← json.list?).mapM Json.text?
  let items ← match _h : json.field? fieldNames "items" with
    | none | some .null => some none
    | some item => (ofJson? item).map some
  return {
    kind := ← text "type"
    title := ← text "title"
    prim := ← text "prim"
    default := ← any "default"
    minLength := ← size "minLength"
    maxLength := ← size "maxLength"
    format := ← text "format"
    constant := ← any "const"
    properties
    oneOf
    required
    items
    itemTitle := ← text "x-itemTitle" }
termination_by sizeOf json
decreasing_by
  · exact Json.sizeOf_lt_of_field? _h
  · have := Json.sizeOf_lt_of_field? _h
    have := List.sizeOf_lt_of_mem ‹branch ∈ branches›
    simp only [Json.arr.sizeOf_spec] at *
    omega
  · have := Json.sizeOf_lt_of_field? _h
    have := List.sizeOf_lt_of_mem ‹(name, member) ∈ members›
    simp only [Json.obj.sizeOf_spec, Prod.mk.sizeOf_spec] at *
    omega

/-! ### Default submissions -/

mutual

/-- What a form is filled with at first: a constant, the first branch, the properties of an
object, no items of an array, or else the default. -/
def defaultSubmission : Schema → Json
  | ⟨_, _, _, _, _, _, _, some constant, _, _, _, _, _⟩ => constant
  | ⟨_, _, _, _, _, _, _, none, _, first :: _, _, _, _⟩ => .obj (ownDefaults first)
  | ⟨kind, _, _, default, _, _, _, none, properties, [], _, _, _⟩ =>
    if kind = some "object" then .obj (defaults properties)
    else if kind = some "array" then .arr []
    else default.getD .null

/-- What the properties of a schema are filled with at first. -/
def ownDefaults : Schema → List (String × Json)
  | ⟨_, _, _, _, _, _, _, _, properties, _, _, _, _⟩ => defaults properties

/-- What named schemas are filled with at first. -/
def defaults : List (String × Schema) → List (String × Json)
  | [] => []
  | (name, schema) :: rest => (name, defaultSubmission schema) :: defaults rest

end

/-! ### Parts of schemas -/

/-- The schema of a type, without its parts. -/
def ofTy (kind : String) (ty : Ty) : Schema :=
  { kind := some kind, title := some ty.name, prim := some ty.prim.name }

/-- The property that tells a branch from the others. -/
def discriminator (key : String) : Schema :=
  { kind := some "string", constant := some (.str key) }

/-- An object with properties that are all required; of several of one name the last one
counts. -/
def withProperties (schema : Schema) (properties : List (String × Schema)) : Schema :=
  { schema with
    -- a name that comes twice is required twice, but there is one property of it
    properties := Members.ofList (schema.properties ++ properties)
    required := schema.required ++ properties.map (·.1) }

/-- A branch with a key of its own. -/
def branch (title key : String) : Schema :=
  ({ title := some title } : Schema).withProperties [(branchKey, discriminator key)]

/-- Whether values of the schema are objects. -/
def isObject (schema : Schema) : Bool :=
  schema.kind == some "object"

/-- The number of characters in an address. -/
def addressLength : Nat := 36

/-- The schema of literals of a content. -/
def ofContent (now : Int) (ty : Ty) (content : Content) : Schema :=
  match content with
  | .integer | .natural => { ofTy "integer" ty with default := some (.num (.int 0)) }
  | .time =>
    { ofTy "string" ty with
      default := some (.str ((Calendar.Timestamp.text? now).getD (Decimal.ofInt now)))
      format := some "date-time" }
  | _ => { ofTy "string" ty with default := some (.str "") }

end Schema

/-- The key of the branch for a leaf of a choice: a digit for each side. -/
def pathKey (path : List Side) : String :=
  String.ofList (path.map fun side => match side with
    | .left => '0'
    | .right => '1')

namespace Ty

/-- The schema of the values of a type; `now` is the default of points in time. -/
def schema (now : Int) (ty : Ty) : Except Error Schema :=
  match ty with
  | .unit i => .ok (Schema.ofTy "object" (.unit i))
  | .never _ => .error (.unsupported .never .schema)
  | .operation _ => .error (.unsupported .operation .schema)
  | .ticket _ _ _ => .error (.unsupported .ticket .schema)
  | .bool i => .ok { Schema.ofTy "boolean" (.bool i) with default := some (.bool false) }
  | .scalar i kind =>
    let schema := Schema.ofContent now (.scalar i kind) kind.content
    match kind with
    | .address => .ok { schema with
        minLength := some Schema.addressLength
        maxLength := some Schema.addressLength }
    | _ => .ok schema
  | .contract i param => .ok (Schema.ofContent now (.contract i param) .text)
  | .pair i l r => do
    -- the unit carries no data
    let members := (Ty.pair i l r).members.filter (!·.isUnit)
    let properties ← members.attach.mapM fun ⟨m, _⟩ => do return (m.name, ← schema now m)
    return (Schema.ofTy "object" (.pair i l r)).withProperties properties
  | .option i inner => do
    let payload ← if inner.isUnit then pure [] else do
      pure [(inner.name, ← schema now inner)]
    return { Schema.ofTy "object" (.option i inner) with
      oneOf := [Schema.branch "None" "none", (Schema.branch "Some" "some").withProperties payload] }
  | .or i l r => do
    let branches ← (Ty.or i l r).leaves.attach.mapM fun ⟨(path, leaf), _⟩ => do
      let payload ← if leaf.isUnit then pure [] else do
        pure [(leaf.name, ← schema now leaf)]
      return (Schema.branch leaf.name (pathKey path)).withProperties payload
    return { Schema.ofTy "object" (.or i l r) with oneOf := branches }
  | .list _ elem | .set _ elem => do
    return { Schema.ofTy "array" ty with
      items := some (← schema now elem), itemTitle := some elem.name }
  | .map _ key value | .bigMap _ key value => do
    let keySchema ← schema now key
    let valueSchema ← schema now value
    return { Schema.ofTy "array" ty with
      items := some (entrySchema (key.name, keySchema) (value.name, valueSchema))
      itemTitle := some key.name }
  | ty =>
    .ok { Schema.ofTy "string" ty with
      format := some "micheline", default := some (.str "") }
termination_by ty.size
decreasing_by
  · exact size_lt_of_mem_members (List.mem_filter.1 ‹_›).1
  · simp only [size]; omega
  · exact size_lt_of_mem_leaves ‹_›
  all_goals simp only [size]; omega
where
  /-- The schema of an entry of a map. -/
  entrySchema (key value : String × Schema) : Schema :=
    ({ kind := some "object" } : Schema).withProperties [key, value]

end Ty

namespace Tree

/-- The schema of an object with a property for each root that is not the unit. -/
def wrappedSchema (now : Int) (t : Tree) : Except Error Schema := do
  let properties ← (t.roots.filter (!·.isUnit)).mapM fun root => do
    return (root.name, ← root.schema now)
  let wrapper : Schema := match t.roots with
    | [root] => Schema.ofTy "object" root
    | _ => { kind := some "object" }
  return wrapper.withProperties properties

/-- The schema of the values of a tree.  A single root whose values are objects stands for
itself; other roots stand in an object under their names. -/
def schema (now : Int) (t : Tree) : Except Error Schema := do
  match t.roots with
  | [root] =>
    let own ← root.schema now
    -- what is no object stands in one under its name
    if own.isObject then return own else t.wrappedSchema now
  | _ => t.wrappedSchema now

end Tree

end Micheline
