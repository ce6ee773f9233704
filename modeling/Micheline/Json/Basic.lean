/-
Micheline/Json/Basic.lean

Documents: null, booleans, numbers, texts, lists and objects.  An object keeps its members
in the order in which their names first appeared; a later member of the same name replaces
the value where it stands.
-/
import Micheline.Json.Double
import Micheline.Text.Decimal

namespace Micheline

/-- A number of a document: an integer that fits in 64 bits with or without a sign, or a
double. -/
inductive Number where
  | int (value : Int)
  | double (value : Double)
  deriving DecidableEq, Repr

/-- A document. -/
inductive Json where
  | null
  | bool (value : Bool)
  | num (value : Number)
  | str (value : String)
  | arr (items : List Json)
  | obj (members : List (String × Json))
  deriving Inhabited

def Number.text : Number → String
  | .int value => Decimal.ofInt value
  | .double value => value.text

/-! ### Members -/

namespace Members

variable {α : Type}

/-- Sets a member: in place if the name is known, at the end if not. -/
def set (name : String) (value : α) : List (String × α) → List (String × α)
  | [] => [(name, value)]
  | (known, old) :: rest =>
    if known = name then (known, value) :: rest else (known, old) :: set name value rest

/-- The value of the first member of a name. -/
def find? (name : String) : List (String × α) → Option α
  | [] => none
  | (known, value) :: rest => if known = name then some value else find? name rest

/-- Sets the members of a list one after another. -/
def ofList (members : List (String × α)) : List (String × α) :=
  members.foldl (fun done (name, value) => set name value done) []

end Members

/-! ### Access -/

namespace Json

/-- The member of an object; none in any other document. -/
def get? (name : String) : Json → Option Json
  | .obj members => Members.find? name members
  | _ => none

def text? : Json → Option String
  | .str value => some value
  | _ => none

def flag? : Json → Option Bool
  | .bool value => some value
  | _ => none

def list? : Json → Option (List Json)
  | .arr items => some items
  | _ => none

def object? : Json → Option (List (String × Json))
  | .obj members => some members
  | _ => none

/-- The value of an integer that is written without a point or an exponent. -/
def int? : Json → Option Int
  | .num (.int value) => some value
  | _ => none

def ofNat (n : Nat) : Json :=
  .num (.int n)

end Json

end Micheline
