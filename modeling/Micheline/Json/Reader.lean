/-
Micheline/Json/Reader.lean

Reading the text of a document.  A reader takes the characters that are left and returns
what it read with what is left then, or nothing if the text is malformed.  Lists and
objects may nest to a given depth; a budget that falls by one at each level bounds the
recursion.
-/
import Micheline.Json.Basic

namespace Micheline.Json

/-- The characters after the white space at the front. -/
def skipBlanks : List Char → List Char
  | [] => []
  | c :: rest => if c = ' ' ∨ c = '\t' ∨ c = '\n' ∨ c = '\r' then skipBlanks rest else c :: rest

/-- Reads exactly the characters of `word`. -/
def expect : (word : List Char) → List Char → Option (List Char)
  | [], text => some text
  | _ :: _, [] => none
  | w :: word, c :: rest => if c = w then expect word rest else none

/-! ### Numbers -/

/-- The largest integer that is kept as one, `2 ^ 64 - 1`. -/
def maxInteger : Nat := 18446744073709551615

/-- The size of the smallest integer that is kept as one, `2 ^ 63`. -/
def maxNegated : Nat := 9223372036854775808

/-- Digits as they are gathered: those that count, and the power of ten they stand at. -/
structure Digits where
  value : Nat
  scale : Int
  /-- Set once a digit did not fit; digits no longer count then. -/
  full : Bool

/-- Takes in one digit before the point: one that does not fit only raises the scale. -/
def Digits.addWhole (d : Digits) (digit : Nat) : Digits :=
  if d.full ∨ maxInteger < d.value * 10 + digit then { d with scale := d.scale + 1, full := true }
  else { d with value := d.value * 10 + digit }

/-- Takes in one digit after the point: one that does not fit, and any later one, is
dropped. -/
def Digits.addFraction (d : Digits) (digit : Nat) : Digits :=
  if d.full ∨ maxInteger < d.value * 10 + digit then { d with full := true }
  else { d with value := d.value * 10 + digit, scale := d.scale - 1 }

/-- Gathers the digits at the front of a text. -/
def takeDigits (add : Digits → Nat → Digits) : Digits → List Char → Digits × List Char
  | d, [] => (d, [])
  | d, c :: rest =>
    match Decimal.digit? c with
    | some digit => takeDigits add (add d digit) rest
    | none => (d, c :: rest)

/-- Reads the digits of an exponent, at least one. -/
def exponentDigits (text : List Char) : Option (Nat × List Char) :=
  match text with
  | c :: rest => do
    let first ← Decimal.digit? c
    let (digits, rest) :=
      takeDigits (fun d n => { d with value := d.value * 10 + n }) ⟨first, 0, false⟩ rest
    return (digits.value, rest)
  | [] => none

/-- Reads an exponent after its letter. -/
def exponent (text : List Char) : Option (Int × List Char) :=
  match text with
  | '-' :: rest => (exponentDigits rest).map fun (n, rest) => (-(n : Int), rest)
  | '+' :: rest => (exponentDigits rest).map fun (n, rest) => ((n : Int), rest)
  | rest => (exponentDigits rest).map fun (n, rest) => ((n : Int), rest)

/-- Reads the exponent, if there is one, and rounds the decimal to a double. -/
def scaled (negative : Bool) (d : Digits) (text : List Char) : Option (Number × List Char) := do
  let (power, rest) ← match text with
    | 'e' :: rest | 'E' :: rest => exponent rest
    | rest => some (0, rest)
  return (.double (← Double.ofDecimal? negative d.value (d.scale + power)), rest)

/-- An integer without point and exponent: kept if it fits in 64 bits, a double if not, and
minus zero is a double. -/
def whole (negative : Bool) (d : Digits) : Option Number :=
  if d.full then (Double.ofDecimal? negative d.value d.scale).map .double
  else if !negative then some (.int d.value)
  else if 0 < d.value ∧ d.value ≤ maxNegated then some (.int (-(d.value : Int)))
  -- minus zero, or too small for an integer
  else (Double.ofDecimal? true d.value 0).map .double

/-- Reads the fraction and the exponent that may follow the digits before the point. -/
def afterWhole (negative : Bool) (d : Digits) (text : List Char) : Option (Number × List Char) :=
  match text with
  | '.' :: c :: rest => do
    let _ ← Decimal.digit? c
    let (d, rest) := takeDigits Digits.addFraction { d with full := false } (c :: rest)
    scaled negative d rest
  | '.' :: [] => none
  | 'e' :: _ | 'E' :: _ => scaled negative d text
  | rest => (whole negative d).map (·, rest)

/-- Reads a number without its sign: no zero may lead. -/
def unsigned (negative : Bool) (text : List Char) : Option (Number × List Char) :=
  match text with
  | '0' :: rest =>
    match rest with
    | c :: _ =>
      -- No digit follows a zero that leads.
      if (Decimal.digit? c).isSome then none else afterWhole negative ⟨0, 0, false⟩ rest
    | [] => afterWhole negative ⟨0, 0, false⟩ []
  | c :: rest => do
    let first ← Decimal.digit? c
    let (d, rest) := takeDigits Digits.addWhole ⟨first, 0, false⟩ rest
    afterWhole negative d rest
  | [] => none

def number (text : List Char) : Option (Number × List Char) :=
  match text with
  | '-' :: rest => unsigned true rest
  | _ => unsigned false text

/-! ### Texts -/

def hexDigit? (c : Char) : Option Nat :=
  if '0' ≤ c ∧ c ≤ '9' then some (c.toNat - 48)
  else if 'a' ≤ c ∧ c ≤ 'f' then some (c.toNat - 87)
  else if 'A' ≤ c ∧ c ≤ 'F' then some (c.toNat - 55)
  else none

/-- The code that four hexadecimal digits write. -/
def code? (a b c d : Char) : Option Nat := do
  return (← hexDigit? a) * 4096 + (← hexDigit? b) * 256 + (← hexDigit? c) * 16 + (← hexDigit? d)

/-- The character of a pair of surrogates. -/
def pairChar? (high low : Nat) : Option Char :=
  if 0xdc00 ≤ low ∧ low < 0xe000 then
    some (Char.ofNat (0x10000 + (high - 0xd800) * 0x400 + (low - 0xdc00)))
  else none

/-- The character that a letter after a backslash stands for. -/
def letter? : Char → Option Char
  | '"' => some '"'
  | '\\' => some '\\'
  | '/' => some '/'
  | 'b' => some '\x08'
  | 'f' => some '\x0c'
  | 'n' => some '\n'
  | 'r' => some '\r'
  | 't' => some '\t'
  | _ => none

/-- Reads the characters of a text after its opening quote, up to and with the closing
one.  A surrogate must be the first of a pair. -/
def chars : List Char → Option (List Char × List Char)
  | [] => none
  | '"' :: rest => some ([], rest)
  | '\\' :: 'u' :: a :: b :: c :: d :: rest => do
    let code ← code? a b c d
    -- a surrogate is one half of a character
    if 0xd800 ≤ code ∧ code < 0xdc00 then
      match rest with
      | '\\' :: 'u' :: e :: f :: g :: h :: rest =>
        let char ← pairChar? code (← code? e f g h)
        let (more, rest) ← chars rest
        return (char :: more, rest)
      | _ => none
    else if 0xdc00 ≤ code ∧ code < 0xe000 then none
    else
      let (more, rest) ← chars rest
      return (Char.ofNat code :: more, rest)
  | '\\' :: c :: rest => do
    let char ← letter? c
    let (more, rest) ← chars rest
    return (char :: more, rest)
  | c :: rest =>
    if c.toNat < 32 then none
    else do
      let (more, rest) ← chars rest
      return (c :: more, rest)

/-! ### Documents -/

/-- Reads one item or more, parted by commas, up to and with the bracket `close`.  The fuel
bounds the number of items. -/
def sequence {α : Type} (item : List Char → Option (α × List Char)) (close : Char) :
    (fuel : Nat) → List Char → Option (List α × List Char)
  | 0, _ => none
  | fuel + 1, text => do
    let (first, rest) ← item text
    match skipBlanks rest with
    | [] => none
    | c :: rest =>
      if c = ',' then
        let (more, rest) ← sequence item close fuel rest
        return (first :: more, rest)
      else if c = close then some ([first], rest)
      else none

/-- Reads items between brackets, the opening one being read already; there may be none. -/
def bracketed {α : Type} (item : List Char → Option (α × List Char)) (close : Char)
    (text : List Char) : Option (List α × List Char) :=
  match skipBlanks text with
  | [] => none
  | c :: rest => if c = close then some ([], rest) else sequence item close text.length text

/-- Reads a member: a text, a colon and a document. -/
def member (document : List Char → Option (Json × List Char)) (text : List Char) :
    Option ((String × Json) × List Char) :=
  match skipBlanks text with
  | '"' :: rest => do
    let (name, rest) ← chars rest
    match skipBlanks rest with
    | ':' :: rest =>
      let (value, rest) ← document rest
      return ((String.ofList name, value), rest)
    | _ => none
  | _ => none

/-- Reads a document in which fewer than `budget` lists and objects nest. -/
def document : (budget : Nat) → List Char → Option (Json × List Char)
  | 0, _ => none
  | budget + 1, text =>
    match skipBlanks text with
    | '[' :: rest => do
      guard (budget ≠ 0)
      let (items, rest) ← bracketed (document budget) ']' rest
      return (.arr items, rest)
    | '\x7b' :: rest => do
      guard (budget ≠ 0)
      let (members, rest) ← bracketed (member (document budget)) '\x7d' rest
      -- A name that comes again keeps its place and takes the later document.
      return (.obj (Members.ofList members), rest)
    | '"' :: rest => do
      let (value, rest) ← chars rest
      return (.str (String.ofList value), rest)
    | 'n' :: rest => (expect ['u', 'l', 'l'] rest).map (.null, ·)
    | 't' :: rest => (expect ['r', 'u', 'e'] rest).map (.bool true, ·)
    | 'f' :: rest => (expect ['a', 'l', 's', 'e'] rest).map (.bool false, ·)
    | rest => (number rest).map fun (value, rest) => (.num value, rest)

/-- How many lists and objects may nest in a text. -/
def maxNesting : Nat := 127

/-- The document that a whole text writes, with at most `nesting` lists and objects nested. -/
def parseNested? (nesting : Nat) (text : String) : Option Json := do
  let (json, rest) ← document (nesting + 1) text.toList
  guard (skipBlanks rest).isEmpty
  return json

def parse? (text : String) : Option Json :=
  parseNested? maxNesting text

end Micheline.Json
