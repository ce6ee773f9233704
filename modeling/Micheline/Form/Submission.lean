/-
Micheline/Form/Submission.lean

Reading submissions of forms, as schemas describe them, as expressions of values.
-/
import Micheline.Form.Format
import Micheline.Form.Schema
import Micheline.Text.Blank
import Micheline.Tree.Settle

namespace Micheline

namespace Submission

/-! ### Forms of data -/

/-- The error that data of a type has another form. -/
def formError (ty : Ty) (expected : String) (got : Json) : Error :=
  .misfit (.form ty.name expected got)

/-- The members of data that must be an object. -/
def object (ty : Ty) (data : Json) : Except Error (List (String × Json)) :=
  match data.object? with
  | some members => .ok members
  | none => .error (formError ty "object" data)

/-- The items of data that must be a list. -/
def array (ty : Ty) (data : Json) : Except Error (List Json) :=
  match data.list? with
  | some items => .ok items
  | none => .error (formError ty "array" data)

/-- The text that data must be. -/
def text (ty : Ty) (expected : String) (data : Json) : Except Error String :=
  match data.text? with
  | some text => .ok text
  | none => .error (formError ty expected data)

/-- The branch that an object takes. -/
def branch (ty : Ty) (members : List (String × Json)) : Except Error String :=
  match (Members.find? branchKey members).bind Json.text? with
  | some key => .ok key
  | none => .error (.misfit (.noBranch ty.name))

/-- What the member of the name of a type holds; the unit needs no member. -/
def member (ty : Ty) (read : Json → Except Error Node) (members : List (String × Json)) :
    Except Error Node :=
  if ty.isUnit then .ok (.app "Unit" [])
  else match Members.find? ty.name members with
    | some data => read data
    | none => .error (.misfit (.missing ty.name))

/-! ### Literals -/

/-- The integer that data is, as a number or as a text. -/
def integer (ty : Ty) (data : Json) : Except Error Int :=
  let value? := match data with
    | .num (.int value) => some value
    | .str text => Decimal.toInt? (trimBlank text)
    | _ => none
  match value? with
  | some value => .ok value
  | none => .error (formError ty "integer" data)

/-- A text that must have a format. -/
def checked (ty : Ty) (format : Format) (data : Json) : Except Error String := do
  let text ← text ty "string" data
  match format.check text with
  | .ok _ => return text
  | .error rejection => throw (.rejected rejection)

def bytes (ty : Ty) (data : Json) : Except Error Bytes := do
  let text ← text ty "string" data
  match Hex.decode (Hex.dropMarker text) with
  | .ok data => return data
  | .error cause => throw (.rejected { format := .bytes, text, cause := .hex cause })

def literal (ty : Ty) (content : Content) (data : Json) : Except Error Node :=
  match content with
  | .integer => do return .int (← integer ty data)
  | .natural => do
    let value ← integer ty data
    if value < 0 then throw (.negative ty.prim value)
    return .int value
  | .time =>
    match data with
    | .num _ => do return .int (← integer ty data)
    | _ => do return .string (← checked ty .timestamp data)
  | .text => do return .string (← text ty "string" data)
  | .identifier role => do return .string (← checked ty (.identifier role) data)
  | _ => do return .bytes (← bytes ty data)

/-! ### Code -/

def isLambda : Ty → Bool
  | .lambda _ _ _ => true
  | _ => false

/-- Whether expressions are one instruction of a function, which is a function of itself
only together with the brackets around it. -/
def isBareInstruction (ty : Ty) : List Node → Bool
  | [.prim name _ _] => isLambda ty && name != "Lambda_rec"
  | _ => false

/-- The expression that a text of expressions is. -/
def source (ty : Ty) (data : Json) : Except Error Node := do
  let text ← text ty "micheline text" data
  match Node.parse text with
  | .error cause => throw (.misfit (.source ty.name cause))
  | .ok ns =>
    -- a function is a sequence, also if it is one instruction long
    if isBareInstruction ty ns then return .seq ns
    match ns with
    | [n] => return n
    | ns => return .seq ns

/-- An expression at the end of a path of sides. -/
def wrap (path : List Side) (n : Node) : Node :=
  path.foldr (fun side n => match side with
    | .left => .app "Left" [n]
    | .right => .app "Right" [n]) n

end Submission

namespace Ty

open Submission in
/-- The expression that a submission for a type stands for. -/
def submit (ty : Ty) (data : Json) : Except Error Node :=
  match ty with
  | .unit _ => .ok (.app "Unit" [])
  | .never _ => .error (.unsupported .never .submission)
  | .operation _ => .error (.unsupported .operation .submission)
  | .ticket _ _ _ => .error (.unsupported .ticket .submission)
  | .bool i =>
    match data with
    | .bool true => .ok (.app "True" [])
    | .bool false => .ok (.app "False" [])
    | data => .error (formError (.bool i) "boolean" data)
  | .scalar i kind => literal (.scalar i kind) kind.content data
  | .contract i param => literal (.contract i param) (.identifier .address) data
  -- the members of a pair that counts as part of this one stand in the same object
  | .pair i l r => do
    let members ← object (.pair i l r) data
    let first ←
      if l.isInnerPair then submit l data else member l (fun data => submit l data) members
    let second ←
      if r.isInnerPair then submit r data else member r (fun data => submit r data) members
    return .app "Pair" [first, second]
  | .option i inner => do
    let members ← object (.option i inner) data
    let key ← branch (.option i inner) members
    if key = "none" then return .app "None" []
    else if key = "some" then
      return .app "Some" [← member inner (fun data => submit inner data) members]
    else throw (.misfit (.optionBranch (Ty.option i inner).name key))
  | .or i l r => do
    let members ← object (.or i l r) data
    let key ← branch (.or i l r) members
    -- the key is the path to the leaf
    match _h : (Ty.or i l r).leaves.find? fun leaf => pathKey leaf.1 == key with
    | some leaf =>
      return wrap leaf.1 (← member leaf.2 (fun data => submit leaf.2 data) members)
    | none => throw (.misfit (.orBranch (Ty.or i l r).name key))
  | .list _ elem | .set _ elem => do
    let items ← array ty data
    return .seq (← items.mapM fun item => submit elem item)
  | .map _ key value | .bigMap _ key value => do
    let items ← array ty data
    return .seq (← items.mapM fun item => do
      let members ← object ty item
      let k ← member key (fun data => submit key data) members
      let v ← member value (fun data => submit value data) members
      return .app "Elt" [k, v])
  | ty => source ty data
termination_by ty.size
decreasing_by
  any_goals (simp only [size]; omega)
  exact size_lt_of_mem_leaves (List.mem_of_find?_eq_some _h)

/-- Whether a submission for the only root stands for itself. -/
def submitsAlone : Ty → Bool
  | .unit _ | .pair _ _ _ | .option _ _ | .or _ _ _ => true
  | _ => false

end Ty

namespace Tree

/-- The expressions that a submission for a tree stands for. -/
def submitted (t : Tree) (data : Json) : Except Error (List Node) := do
  if t.roots.length = 1 ∧ t.roots.all Ty.submitsAlone then
    t.roots.mapM fun root => root.submit data
  else
    match data.object? with
    | some members => t.roots.mapM fun root => Submission.member root root.submit members
    | none => throw (.misfit (.noObject data))

/-- The tree with the values of a submission, in place of those it has. -/
def submit (t : Tree) (data : Json) : Except Error Tree := do
  t.settle (← t.submitted data)

end Tree

end Micheline
