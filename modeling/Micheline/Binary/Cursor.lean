/-
Micheline/Binary/Cursor.lean

Reading expressions one by one with a cursor.  A cursor knows how many of its bytes were
taken and how many levels down it stands.  A level is entered for each expression and left
again when the expression was read, or could not be; the bytes of a sequence and those of
the arguments after tag 09 have a cursor of their own, on the same level.

The pieces of an expression are those of every source of bytes; a cursor takes them by
moving on, so that what was taken stays taken when the expression turns out not to be one.
-/
import Micheline.Binary.Decode

namespace Micheline.Binary

/-- A place in data. -/
structure Cursor where
  data : Bytes
  /-- How many bytes were taken. -/
  offset : Nat
  /-- How many levels down the cursor stands. -/
  depth : Nat
  deriving DecidableEq, Repr

namespace Cursor

/-- At the front of data that stands some levels down. -/
def nested (data : Bytes) (depth : Nat) : Cursor :=
  ⟨data, 0, depth⟩

def start (data : Bytes) : Cursor :=
  nested data 0

def remaining (c : Cursor) : Nat :=
  c.data.length - c.offset

def isEmpty (c : Cursor) : Bool :=
  c.remaining == 0

def rest (c : Cursor) : Bytes :=
  c.data.drop c.offset

/-- The cursor as many bytes further on. -/
def advance (c : Cursor) (used : Nat) : Cursor :=
  { c with offset := c.offset + used }

/-! ### Steps -/

/-- A step of a cursor, which may fail. -/
abbrev Step : Type → Type := ExceptT Error (StateM Cursor)

instance : Source Step where
  readByte := do
    let c ← get
    match c.data[c.offset]? with
    | none => throw (.tooFewBytes 1 0)
    | some b =>
      set (c.advance 1)
      return b
  readExactly n := do
    let c ← get
    if c.remaining < n then throw (.tooFewBytes n c.remaining)
    else
      set (c.advance n)
      return c.rest.take n
  readInt := do
    let c ← get
    match Integer.decode c.rest with
    | .ok (value, used) =>
      set (c.advance used)
      return value
    | .error e => throw e

/-- A step one level down.  The level is left again also where the step fails. -/
def below {α : Type} (step : Step α) : Step α := do
  if maxDepth ≤ (← get).depth then throw (.tooDeep maxDepth)
  else
    modify fun c => { c with depth := c.depth + 1 }
    let outcome ← ExceptT.lift step.run
    modify fun c => { c with depth := c.depth - 1 }
    ExceptT.mk (pure outcome)

/-- Takes items until no byte is left.  Each item takes a byte at least, so that as many
steps as there are bytes suffice. -/
def untilEnd (item : Step Node) : (fuel : Nat) → Cursor → Except Error (List Node)
  | 0, _ => .ok []
  | fuel + 1, c =>
    if c.isEmpty then .ok []
    else
      match item.run.run c with
      | (.ok n, c) => do return n :: (← untilEnd item fuel c)
      | (.error e, _) => .error e

/-- Takes all items of a body, with a cursor of its own. -/
def all (item : Step Node) (body : Bytes) : Step (List Node) := do
  let c ← get
  ExceptT.mk (pure (untilEnd item body.length (nested body c.depth)))

/-- Takes an expression.  No level is below the last one, so that as many calls inside each
other as there are levels suffice. -/
def node : (fuel : Nat) → Step Node
  | 0 => throw (.tooDeep maxDepth)
  | fuel + 1 => below (readTagged (node fuel) (all (node fuel)))

/-- The next expression, and the cursor behind it or where reading it stopped. -/
def read (c : Cursor) : Except Error Node × Cursor :=
  (node maxDepth).run.run c

/-- The cursor after a number of expressions were read or could not be. -/
def after : (reads : Nat) → Cursor → Cursor
  | 0, c => c
  | reads + 1, c => after reads c.read.2

end Cursor

end Micheline.Binary
