/-
Micheline/Contract/Script.lean

Scripts of contracts: sections for the parameter, the storage and the code, of which the
last one of each kind counts, and one for each view.
-/
import Micheline.Tree.Settle

namespace Micheline

structure View where
  name : String
  parameter : Tree
  result : Tree
  code : Node
  deriving DecidableEq, Repr

structure Script where
  parameter : Tree
  storage : Tree
  code : Node
  views : List View
  /-- All sections as they were written. -/
  sections : List Node
  deriving DecidableEq, Repr

namespace Script

/-! ### Sections -/

def parameterName : String := "parameter"

def storageName : String := "storage"

def codeName : String := "code"

def viewName : String := "view"

/-- The one argument of a section. -/
def onlyArg (name : String) (part : Node) : Except Error Node :=
  match part.args with
  | [arg] => .ok arg
  | args => .error (.arity name (.exactly 1) args.length)

def view (part : Node) : Except Error View :=
  match part.args with
  | [.string name, parameter, result, code] => do
    let parameter ← Tree.ofNodes [parameter]
    let result ← Tree.ofNodes [result]
    return { name, parameter, result, code }
  | [other, _, _, _] => .error (.mismatch "view name" other.describe)
  | args => .error (.arity viewName (.exactly 4) args.length)

inductive Section where
  | parameter (type : Node)
  | storage (type : Node)
  | code (n : Node)
  | view (v : View)

/-- The section that an expression writes. -/
def Section.ofNode (part : Node) : Except Error Section := do
  match part.name? with
  | none => throw (.mismatch "script section" part.describe)
  | some name =>
    if name = parameterName then return .parameter (← onlyArg parameterName part)
    else if name = storageName then return .storage (← onlyArg storageName part)
    else if name = codeName then return .code (← onlyArg codeName part)
    else if name = viewName then return .view (← Script.view part)
    else throw (.mismatch "script section" part.describe)

/-- The sections that were read so far. -/
structure Sections where
  parameter : Option Node := none
  storage : Option Node := none
  code : Option Node := none
  views : List View := []

def Sections.add (s : Sections) : Section → Sections
  | .parameter type => { s with parameter := some type }
  | .storage type => { s with storage := some type }
  | .code n => { s with code := some n }
  | .view v => { s with views := s.views ++ [v] }

/-- A section that must be there. -/
def needed (name : String) : Option Node → Except Error Node
  | some n => .ok n
  | none => .error (.missingSection name)

/-- The script of the sections that were read from expressions. -/
def Sections.script (read : Sections) (sections : List Node) : Except Error Script := do
  let parameter ← needed parameterName read.parameter
  let storage ← needed storageName read.storage
  let code ← needed codeName read.code
  return {
    parameter := ← Tree.ofNodes [parameter]
    storage := ← Tree.ofNodes [storage]
    code
    views := read.views
    sections }

/-! ### Scripts -/

/-- The expressions of sections, which may stand in a sequence. -/
def listed : List Node → List Node
  | [.seq items] => items
  | ns => ns

/-- The script of a list of sections. -/
def ofNodes (ns : List Node) : Except Error Script := do
  let read : Sections ←
    (listed ns).foldlM (fun s part => return s.add (← Section.ofNode part)) {}
  read.script (listed ns)

/-- The script in a document: the list of sections or an object with that as its code. -/
def ofJson (json : Json) : Except Error Script := do
  ofNodes (← lift .node (Node.ofDocument ((json.get? codeName).getD json)))

def parse (text : String) : Except Error Script :=
  match Json.parse? text with
  | some json => ofJson json
  | none => .error (.node .malformed)

/-- The storage with the value in a document. -/
def storageValue (s : Script) (json : Json) : Except Error Tree :=
  s.storage.settleJson json

def view? (s : Script) (name : String) : Option View :=
  s.views.find? fun v => v.name == name

/-! ### Constants -/

/-- The hash of a constant, if the expression is one. -/
def constant? : Node → Option String
  | .prim "constant" [.string hash] _ => some hash
  | _ => none

/-- Adds the hash of an expression that is a constant to those found so far, unless it is there
already. -/
def note (found : List String) (n : Node) : List String :=
  match constant? n with
  | some hash => if hash ∈ found then found else found ++ [hash]
  | none => found

mutual

/-- Adds the hashes of the constants in an expression to those found so far. -/
def collect (found : List String) (n : Node) : List String :=
  match n with
  | .prim _ args _ => collectAll (note found n) args
  | .seq items => collectAll found items
  | _ => found

/-- Adds the hashes of the constants in a list of expressions, one after another. -/
def collectAll (found : List String) : List Node → List String
  | [] => found
  | n :: ns => collectAll (collect found n) ns

end

/-- The hashes of the constants in a script, each once. -/
def constants (s : Script) : List String :=
  collectAll [] s.sections

end Script

end Micheline
