/-
Micheline/Json/Record.lean

Documents as records of named fields.  A record is an object, whose other members are of no
account, or a list of the values of its fields in their order, which may end early.
-/
import Micheline.Json.Basic

namespace Micheline.Json

/-- Whether a document may be a record of as many fields as there are names. -/
def isRecord (names : List String) : Json → Bool
  | .obj _ => true
  | .arr items => items.length ≤ names.length
  | _ => false

/-- A field of a record. -/
def field? (names : List String) (name : String) : Json → Option Json
  | .obj members => Members.find? name members
  | .arr items => items[names.idxOf name]?
  | _ => none

/-- A field that may be missing or null. -/
def optional? {α : Type} (read : Json → Option α) : Option Json → Option (Option α)
  | none | some .null => some none
  | some json => (read json).map some

/-- A number of a length. -/
def nat? (json : Json) : Option Nat := do
  let value ← json.int?
  guard (0 ≤ value)
  return value.toNat

/-- The members of an object that are there. -/
def present (members : List (String × Option Json)) : List (String × Json) :=
  members.filterMap fun (name, value) => value.map fun json => (name, json)

/-! ### Size -/

theorem sizeOf_lt_of_find? {name : String} {members : List (String × Json)} {json : Json}
    (h : Members.find? name members = some json) : sizeOf json < sizeOf members := by
  induction members with
  | nil => simp [Members.find?] at h
  | cons m ms ih =>
    obtain ⟨known, value⟩ := m
    simp only [Members.find?] at h
    simp only [List.cons.sizeOf_spec, Prod.mk.sizeOf_spec]
    split at h
    · obtain rfl := Option.some.inj h
      omega
    · have := ih h
      omega

/-- A field is smaller than its record. -/
theorem sizeOf_lt_of_field? {names : List String} {name : String} {record json : Json}
    (h : field? names name record = some json) : sizeOf json < sizeOf record := by
  cases record with
  | obj members =>
    have := sizeOf_lt_of_find? h
    simp only [obj.sizeOf_spec]
    omega
  | arr items =>
    have := List.sizeOf_lt_of_mem (List.mem_of_getElem? h)
    simp only [arr.sizeOf_spec]
    omega
  | _ => simp [field?] at h

end Micheline.Json
