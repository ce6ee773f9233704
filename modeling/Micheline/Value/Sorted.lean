/-
Micheline/Value/Sorted.lean

Lists in ascending order of keys, for an order that may fail to compare two keys.  A search
goes from the front and stops at the first key that is not less than the one sought; where
two keys cannot be compared it fails.
-/

namespace Micheline.Sorted

variable {ε κ ν : Type}

/-! ### Entries -/

/-- The value at a key. -/
def find? (cmp : κ → κ → Except ε Ordering) (key : κ) : List (κ × ν) → Except ε (Option ν)
  | [] => .ok none
  | (k, v) :: rest => do
    match ← cmp k key with
    | .lt => find? cmp key rest
    | .eq => return some v
    | .gt => return none

/-- Puts a value at a key.  Where an equal key is known, that key stays and the value before
is returned. -/
def insert (cmp : κ → κ → Except ε Ordering) (key : κ) (value : ν) :
    List (κ × ν) → Except ε (Option ν × List (κ × ν))
  | [] => .ok (none, [(key, value)])
  | (k, v) :: rest => do
    match ← cmp k key with
    | .lt =>
      let (old, rest) ← insert cmp key value rest
      return (old, (k, v) :: rest)
    -- The key that came first stays, with the later value.
    | .eq => return (some v, (k, value) :: rest)
    | .gt => return (none, (key, value) :: (k, v) :: rest)

/-- Removes a key and returns the value that was there. -/
def erase (cmp : κ → κ → Except ε Ordering) (key : κ) :
    List (κ × ν) → Except ε (Option ν × List (κ × ν))
  | [] => .ok (none, [])
  | (k, v) :: rest => do
    match ← cmp k key with
    | .lt =>
      let (old, rest) ← erase cmp key rest
      return (old, (k, v) :: rest)
    | .eq => return (some v, rest)
    | .gt => return (none, (k, v) :: rest)

/-! ### Elements -/

/-- Adds an element unless an equal one is there. -/
def add (cmp : κ → κ → Except ε Ordering) (x : κ) : List κ → Except ε (List κ)
  | [] => .ok [x]
  | y :: rest => do
    match ← cmp y x with
    | .lt => return y :: (← add cmp x rest)
    | .eq => return y :: rest
    | .gt => return x :: y :: rest

end Micheline.Sorted
