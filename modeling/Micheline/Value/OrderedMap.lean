/-
Micheline/Value/OrderedMap.lean

Maps whose keys are values with their types, in ascending order.  Two keys that compare as
equal are one key, however their literals are written; the literal that came first stays.
Where two keys cannot be compared an operation fails and leaves the map as it was.
-/
import Micheline.Action
import Micheline.Value.Order
import Micheline.Value.Sorted

namespace Micheline

/-- A map from values to values. -/
structure OrderedMap where
  entries : List (Typed × Typed) := []
  deriving DecidableEq, Repr

namespace OrderedMap

def empty : OrderedMap := {}

def size (m : OrderedMap) : Nat :=
  m.entries.length

def isEmpty (m : OrderedMap) : Bool :=
  m.entries.isEmpty

def keys (m : OrderedMap) : List Typed :=
  m.entries.map (·.1)

def values (m : OrderedMap) : List Typed :=
  m.entries.map (·.2)

def get? (m : OrderedMap) (key : Typed) : Except Error (Option Typed) :=
  Sorted.find? Typed.compare key m.entries

def contains (m : OrderedMap) (key : Typed) : Except Error Bool := do
  return (← m.get? key).isSome

/-- Changes the entries. -/
def edit (change : List (Typed × Typed) → Except Error (Option Typed × List (Typed × Typed))) :
    Action OrderedMap (Option Typed) :=
  .replace fun m => do
    let (old, entries) ← change m.entries
    return (old, { m with entries })

/-- Puts a value at a key.  Returns the value that was there. -/
def insert (key value : Typed) : Action OrderedMap (Option Typed) :=
  edit (Sorted.insert Typed.compare key value)

/-- Removes a key.  Returns the value that was there. -/
def erase (key : Typed) : Action OrderedMap (Option Typed) :=
  edit (Sorted.erase Typed.compare key)

/-- Visits entries in ascending order until a visit says that it was the last one. -/
def range {σ : Type} (m : OrderedMap) (visit : σ → Typed → Typed → σ × Bool) (start : σ) : σ :=
  go start m.entries
where
  /-- Visits the entries of a list. -/
  go (state : σ) : List (Typed × Typed) → σ
    | [] => state
    | (key, value) :: rest =>
      match visit state key value with
      | (state, true) => go state rest
      | (state, false) => state

end OrderedMap

end Micheline
