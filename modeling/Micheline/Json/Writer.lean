/-
Micheline/Json/Writer.lean

The text of a document, on one line or indented by two blanks a level.  Non-ASCII
characters stand for themselves; in texts the quote, the backslash and the characters
below U+0020 are escaped.
-/
import Micheline.Json.Basic

namespace Micheline.Json

/-- The four lower-case hexadecimal digits of a code below `2 ^ 16`. -/
def fourDigits (code : Nat) : List Char :=
  let text := Nat.toDigits 16 code
  List.replicate (4 - text.length) '0' ++ text

/-- A character as it stands inside a text. -/
def escape (c : Char) : List Char :=
  match c with
  | '"' => ['\\', '"']
  | '\\' => ['\\', '\\']
  | '\n' => ['\\', 'n']
  | '\r' => ['\\', 'r']
  | '\t' => ['\\', 't']
  | '\x08' => ['\\', 'b']
  | '\x0c' => ['\\', 'f']
  | c => if c.toNat < 32 then ['\\', 'u'] ++ fourDigits c.toNat else [c]

/-- A text in quotes. -/
def quote (text : String) : List Char :=
  ['"'] ++ text.toList.flatMap escape ++ ['"']

/-! ### One line -/

mutual

/-- The characters of a document on one line. -/
def compactChars : Json → List Char
  | .null => ['n', 'u', 'l', 'l']
  | .bool true => ['t', 'r', 'u', 'e']
  | .bool false => ['f', 'a', 'l', 's', 'e']
  | .num value => value.text.toList
  | .str value => quote value
  | .arr [] => ['[', ']']
  | .arr (item :: items) => ['['] ++ compactChars item ++ compactItems items
  | .obj [] => ['\x7b', '\x7d']
  | .obj (member :: members) =>
    ['\x7b'] ++ quote member.1 ++ [':'] ++ compactChars member.2 ++ compactMembers members

/-- The items after the first, and the closing bracket. -/
def compactItems : List Json → List Char
  | [] => [']']
  | item :: items => [','] ++ compactChars item ++ compactItems items

/-- The members after the first, and the closing brace. -/
def compactMembers : List (String × Json) → List Char
  | [] => ['\x7d']
  | (name, value) :: members =>
    [','] ++ quote name ++ [':'] ++ compactChars value ++ compactMembers members

end

/-- A document on one line, without blanks. -/
def compact (json : Json) : String :=
  String.ofList (compactChars json)

/-! ### Indented -/

/-- A new line at a level. -/
def newLine (level : Nat) : List Char :=
  '\n' :: List.replicate (2 * level) ' '

mutual

/-- The characters of a document whose first line stands at `level`. -/
def prettyChars (level : Nat) : Json → List Char
  | .arr (item :: items) =>
    ['['] ++ newLine (level + 1) ++ prettyChars (level + 1) item ++ prettyItems level items
  | .obj (member :: members) =>
    ['\x7b'] ++ newLine (level + 1) ++ quote member.1 ++ [':', ' ']
      ++ prettyChars (level + 1) member.2 ++ prettyMembers level members
  | .arr [] => ['[', ']']
  | .obj [] => ['\x7b', '\x7d']
  | .null => compactChars .null
  | .bool value => compactChars (.bool value)
  | .num value => compactChars (.num value)
  | .str value => compactChars (.str value)

/-- The items after the first, one a line, and the closing bracket. -/
def prettyItems (level : Nat) : List Json → List Char
  | [] => newLine level ++ [']']
  | item :: items =>
    [','] ++ newLine (level + 1) ++ prettyChars (level + 1) item ++ prettyItems level items

/-- The members after the first, one a line, and the closing brace. -/
def prettyMembers (level : Nat) : List (String × Json) → List Char
  | [] => newLine level ++ ['\x7d']
  | (name, value) :: members =>
    [','] ++ newLine (level + 1) ++ quote name ++ [':', ' '] ++ prettyChars (level + 1) value
      ++ prettyMembers level members

end

/-- A document with one item or member a line. -/
def pretty (json : Json) : String :=
  String.ofList (prettyChars 0 json)

end Micheline.Json
