/-
Micheline/Binary/Decode.lean

Reading expressions from bytes.  A reader passes on the bytes that are left, also when it
fails: what it had taken by then stays taken.  An expression may nest a thousand levels;
the levels that are left bound the recursion.
-/
import Micheline.Binary.Encode

namespace Micheline.Binary

/-! ### Pieces -/

/-- Where bytes are taken from, a piece at a time. -/
class Source (m : Type → Type) where
  /-- Takes one byte. -/
  readByte : m UInt8
  /-- Takes exactly `n` bytes, or none if there are fewer. -/
  readExactly (n : Nat) : m Bytes
  /-- Takes an integer. -/
  readInt : m Int

export Source (readByte readExactly readInt)

/-- A reader of bytes: what it reads or why it fails, and the bytes that are left. -/
abbrev Reader : Type → Type := ExceptT Error (StateM Bytes)

instance : Source Reader where
  readByte := do
    match ← get with
    | [] => throw (.tooFewBytes 1 0)
    | b :: rest =>
      set rest
      return b
  readExactly n := do
    let data ← get
    let body := data.take n
    if body.length = n then
      set (data.drop n)
      return body
    else throw (.tooFewBytes n data.length)
  readInt := do
    match Integer.read (← get) with
    | .ok (value, rest) =>
      set rest
      return value
    | .error e => throw e

/-- The number that bytes write in big-endian order. -/
def bigEndian (data : Bytes) : Nat :=
  data.foldl (fun n b => n * 256 + b.toNat) 0

/-- The pieces of a text between blanks. -/
def pieces : List Char → List (List Char)
  | [] => [[]]
  | c :: rest =>
    if c = ' ' then [] :: pieces rest
    else match pieces rest with
      | [] => [[c]]
      | piece :: more => (c :: piece) :: more

/-- The pieces that are not empty. -/
def words (text : String) : List String :=
  ((pieces text.toList).filter (!·.isEmpty)).map String.ofList

section

variable {m : Type → Type} [Monad m] [MonadExcept Error m] [Source m]

/-- Takes a length and as many bytes. -/
def readSized : m Bytes := do
  let length ← readExactly 4
  readExactly (bigEndian length)

/-- Takes a length and a text of as many bytes. -/
def readText : m String := do
  let data ← readSized
  match Utf8.decode? data with
  | some text => return text
  | none => throw .invalidString

def readAnnots : m (List String) := do
  return words (← readText)

def readKeyword : m String := do
  let code ← readByte
  match Keyword.name? code.toNat with
  | some name => return name
  | none => throw (.invalidKeyword code)

def readMany (item : m Node) : (n : Nat) → m (List Node)
  | 0 => return []
  | n + 1 => do
    let first ← item
    return first :: (← readMany item n)

/-- Takes an expression whose parts are items.  The bytes of a sequence, and those of the
arguments after tag 09, are all read as items. -/
def readTagged (item : m Node) (readAll : Bytes → m (List Node)) : m Node := do
  let tag ← readByte
  match tag.toNat with
  | 0x00 => return .int (← readInt)
  | 0x01 => return .string (← readText)
  | 0x02 =>
    let body ← readSized
    return .seq (← readAll body)
  | 0x0a => return .bytes (← readSized)
  | 0x09 =>
    let name ← readKeyword
    let body ← readSized
    let args ← readAll body
    return .prim name args (← readAnnots)
  | t =>
    -- two tags for each number of arguments, the second one with annotations
    if 0x03 ≤ t ∧ t ≤ 0x08 then
      let name ← readKeyword
      let args ← readMany item ((t - 3) / 2)
      let annots ← if (t - 3) % 2 = 1 then readAnnots else pure []
      return .prim name args annots
    else throw (.unknownTag tag)

end

/-! ### Expressions -/

/-- How many levels an expression may nest. -/
def maxDepth : Nat := 1000

/-- Reads until no byte is left.  Each item takes a byte at least, so that as many steps as
there are bytes suffice. -/
def readUntilEnd (item : Reader Node) : (fuel : Nat) → Bytes → Except Error (List Node)
  | 0, _ => .ok []
  | fuel + 1, data =>
    if data.isEmpty then .ok []
    else
      match item.run.run data with
      | (.ok n, rest) => do return n :: (← readUntilEnd item fuel rest)
      | (.error e, _) => .error e

def readAll (item : Reader Node) (data : Bytes) : Except Error (List Node) :=
  readUntilEnd item data.length data

/-- Takes an expression that nests at most `levels` levels. -/
def readNode : (levels : Nat) → Reader Node
  | 0 => throw (.tooDeep maxDepth)
  | levels + 1 =>
    readTagged (readNode levels) fun body => liftExcept (readAll (readNode levels) body)
where
  /-- An outcome that takes no bytes. -/
  liftExcept {α : Type} (e : Except Error α) : Reader α :=
    ExceptT.mk (pure e)

/-- Reads the expression at the front of `data`; the bytes after it, or where the reading
stopped, come with the outcome. -/
def next (data : Bytes) : Except Error Node × Bytes :=
  (readNode maxDepth).run.run data

/-- All expressions in `data`. -/
def decode (data : Bytes) : Except Error (List Node) :=
  readAll (readNode maxDepth) data

/-- The one expression in `data`. -/
def decodeOne (data : Bytes) : Except Error Node :=
  match next data with
  | (.error e, _) => .error e
  | (.ok n, []) => .ok n
  | (.ok _, rest) => .error (.trailingBytes rest.length)

/-! ### Hexadecimal -/

/-- The bytes of a hexadecimal text, with any number of `0x` before it. -/
def ofHex (text : String) : Except Error Bytes :=
  match Hex.decode (Hex.dropMarkers text) with
  | .ok data => .ok data
  | .error cause => .error (.invalidHex cause)

/-- All expressions whose bytes a text writes in hexadecimal. -/
def decodeHex (text : String) : Except Error (List Node) := do
  decode (← ofHex text)

end Micheline.Binary
