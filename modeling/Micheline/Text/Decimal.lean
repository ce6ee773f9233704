/-
Micheline/Text/Decimal.lean

Integers written in decimal digits, in two grammars.

* `Decimal.toInt?` reads an integer of any size, as integer literals are written: an
  optional minus, an optional plus that is not after a minus, a digit, then digits and
  underscores, the latter ignored.
* `Decimal.toInt64?` reads a second count: an optional sign, digits only, and a value
  that fits in 64 bits.

Printing is the standard one, `Int.repr` without brackets.
-/

namespace Micheline.Decimal

def digit? (c : Char) : Option Nat :=
  if '0' ≤ c ∧ c ≤ '9' then some (c.toNat - '0'.toNat) else none

def ofNat (n : Nat) : String :=
  n.repr

/-- The decimal text of an integer: a minus if it is negative, then its digits. -/
def ofInt : Int → String
  | .ofNat n => ofNat n
  | .negSucc n => "-" ++ ofNat (n + 1)

/-- Reads digits and underscores to the end, continuing from `value`. -/
def digits? : (value : Nat) → List Char → Option Nat
  | value, [] => some value
  | value, c :: rest =>
    if c = '_' then digits? value rest
    else do digits? (value * 10 + (← digit? c)) rest

/-- An unsigned literal: a plus may lead, but not two; then a digit must come first. -/
def magnitude? (text : List Char) : Option Nat :=
  let body := match text with
    | '+' :: '+' :: _ => text
    | '+' :: rest => rest
    | _ => text
  match body with
  | [] => none
  | c :: rest => do digits? (← digit? c) rest

/-- An integer literal of any size. -/
def toInt? (text : String) : Option Int :=
  match text.toList with
  | '-' :: '+' :: _ => none
  | '-' :: rest => (magnitude? rest).map fun n => -(n : Int)
  | text => (magnitude? text).map fun n => (n : Int)

/-- Plain digits, at least one. -/
def natural? (text : List Char) : Option Nat :=
  if text.isEmpty then none
  else text.foldlM (fun value c => (digit? c).map (value * 10 + ·)) 0

/-- Whether an integer fits in 64 bits with a sign: from `-2 ^ 63` up to below `2 ^ 63`. -/
def isInt64 (value : Int) : Bool :=
  decide (-9223372036854775808 ≤ value ∧ value < 9223372036854775808)

/-- An integer with an optional sign that fits in 64 bits. -/
def toInt64? (text : String) : Option Int := do
  let value : Int ← match text.toList with
    | '-' :: rest => (natural? rest).map fun n => -(n : Int)
    | '+' :: rest => (natural? rest).map fun n => (n : Int)
    | text => (natural? text).map fun n => (n : Int)
  guard (isInt64 value)
  return value

end Micheline.Decimal
