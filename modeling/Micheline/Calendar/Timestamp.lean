/-
Micheline/Calendar/Timestamp.lean

Points in time in whole seconds from the first of January 1970, and their text as RFC 3339
has it.  Reading goes from left to right, so that of several faults the first one counts;
only the existence of the date is looked at as soon as it is read, and the time of day
after its fraction.  Parts of seconds are dropped.  Writing uses universal time.
-/
import Micheline.Calendar.Date
import Micheline.Text.Decimal
import Micheline.Text.Utf8

namespace Micheline.Calendar.Timestamp

/-- Why a text is no point in time. -/
inductive Error where
  | prematureEnd
  | invalidCharacters
  | outOfRange
  | trailingInput
  deriving DecidableEq, Repr

def Error.message : Error → String
  | .prematureEnd => "premature end of input"
  | .invalidCharacters => "input contains invalid characters"
  | .outOfRange => "input is out of range"
  | .trailingInput => "trailing input"

/-! ### Reading -/

/-- The value of an ASCII digit. -/
def digit (byte : UInt8) : Except Error Nat :=
  if 48 ≤ byte.toNat ∧ byte.toNat ≤ 57 then .ok (byte.toNat - 48) else .error .invalidCharacters

def twoDigits (a b : UInt8) : Except Error Nat := do
  return (← digit a) * 10 + (← digit b)

/-- Requires a certain character. -/
def mark (c : Char) (byte : UInt8) : Except Error Unit :=
  if byte.toNat = c.toNat then .ok () else .error .invalidCharacters

/-- Reads a date of ten characters; it has to exist. -/
def date : Bytes → Except Error (Date × Bytes)
  | a :: b :: c :: d :: m1 :: e :: f :: m2 :: g :: h :: rest => do
    let century ← twoDigits a b
    let year ← twoDigits c d
    mark '-' m1
    let month ← twoDigits e f
    mark '-' m2
    let day ← twoDigits g h
    let date : Date := ⟨century * 100 + year, month, day⟩
    if date.exists? then return (date, rest) else throw .outOfRange
  | _ => .error .prematureEnd

/-- Reads the hour, the minute and the second after the mark that parts them from the date,
a `T` of either case or a blank. -/
def clock : Bytes → Except Error ((Nat × Nat × Nat) × Bytes)
  | t :: a :: b :: m1 :: c :: d :: m2 :: e :: f :: rest => do
    if t.toNat ≠ 84 ∧ t.toNat ≠ 116 ∧ t.toNat ≠ 32 then throw .invalidCharacters
    let hour ← twoDigits a b
    mark ':' m1
    let minute ← twoDigits c d
    mark ':' m2
    let second ← twoDigits e f
    return ((hour, minute, second), rest)
  | _ => .error .prematureEnd

def skipDigits : Bytes → Bytes
  | [] => []
  | b :: rest => match digit b with
    | .ok _ => skipDigits rest
    | .error _ => b :: rest

/-- Drops the fraction of a second, if there is one; it has a digit at least. -/
def skipFraction : Bytes → Except Error Bytes
  | 46 :: [] => .error .prematureEnd
  | 46 :: b :: rest => do
    let _ ← digit b
    return skipDigits rest
  | rest => .ok rest

/-- Reads the hours and minutes of an offset after its sign, to the end of the text. -/
def offset : Bytes → Except Error Nat
  | [] | [_] => .error .prematureEnd
  | a :: b :: rest => do
    let hours ← twoDigits a b
    match rest with
    | [] => throw .prematureEnd
    | m :: rest =>
      mark ':' m
      match rest with
      | [] => throw .prematureEnd
      | [_] => throw .prematureEnd
      | c :: d :: rest =>
        let tens ← digit c
        -- from 60 minutes on, digits are out of range and anything else is no number at all
        if tens < 6 then
          let ones ← digit d
          if rest ≠ [] then throw .trailingInput
          if 24 ≤ hours then throw .outOfRange
          return (hours * 60 + tens * 10 + ones) * 60
        else
          let _ ← digit d
          throw .outOfRange

/-- Reads the zone to the end of the text, in seconds east of universal time. -/
def zone : Bytes → Except Error Int
  | [] => .error .prematureEnd
  | 0x2b :: rest => do return (← offset rest : Nat)
  -- The minus sign counts as a hyphen does.
  | 0x2d :: rest | 0xe2 :: 0x88 :: 0x92 :: rest => do return -((← offset rest : Nat) : Int)
  | b :: rest =>
    if b.toNat = 90 ∨ b.toNat = 122 then
      if rest = [] then .ok 0 else .error .trailingInput
    else .error .invalidCharacters

/-- The seconds that a text in the form of RFC 3339 stands for. -/
def ofRfc3339 (text : String) : Except Error Int := do
  let data := Utf8.encode text
  if data.length < 19 then throw .prematureEnd
  let (date, rest) ← date data
  let ((hour, minute, second), rest) ← clock rest
  let rest ← skipFraction rest
  -- a leap second is let through
  if 24 ≤ hour ∨ 60 ≤ minute ∨ 61 ≤ second then throw .outOfRange
  let east ← zone rest
  let second := if second = 60 then 59 else second
  return date.toDays * 86400 + (hour * 3600 + minute * 60 + second : Nat) - east

/-- The seconds that a text stands for: an integer of 64 bits or a text in the form of
RFC 3339. -/
def parse (text : String) : Except Error Int :=
  match Decimal.toInt64? text with
  | some seconds => .ok seconds
  | none => ofRfc3339 text

/-- Checks that a text stands for a point in time. -/
def validate (text : String) : Except Error Unit := do
  if (Decimal.toInt64? text).isSome then return
  let _ ← ofRfc3339 text

/-! ### Writing -/

def first : Int := -8334601228800

def last : Int := 8210266876799

/-- A number below a hundred in two digits. -/
def padTwo (n : Nat) : String :=
  if n < 10 then "0" ++ Decimal.ofNat n else Decimal.ofNat n

/-- A year in four digits; one outside of 0 to 9999 has a sign and four digits or more. -/
def yearText (year : Int) : String :=
  let digits := Nat.toDigits 10 year.natAbs
  let padded := String.ofList (List.replicate (4 - digits.length) '0' ++ digits)
  if 0 ≤ year ∧ year ≤ 9999 then padded
  else if year < 0 then "-" ++ padded
  else "+" ++ padded

/-- The text of a point in time, if it has one. -/
def text? (seconds : Int) : Option String :=
  if first ≤ seconds ∧ seconds ≤ last then
    let date := Date.ofDays (seconds / 86400)
    let second := (seconds % 86400).toNat
    some (yearText date.year ++ "-" ++ padTwo date.month ++ "-" ++ padTwo date.day ++ "T"
      ++ padTwo (second / 3600) ++ ":" ++ padTwo (second / 60 % 60) ++ ":" ++ padTwo (second % 60)
      ++ "Z")
  else none

end Micheline.Calendar.Timestamp
