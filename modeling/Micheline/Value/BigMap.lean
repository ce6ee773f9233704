/-
Micheline/Value/BigMap.lean

Big maps whose contents are kept elsewhere.  A value holds a pointer; updates for that
pointer bring entries into it, as their keys and values in binary form.
-/
import Micheline.Binary.Decode
import Micheline.Json.Record
import Micheline.Value.Settle

namespace Micheline

/-! ### Updates -/

/-- An update of the big map behind a pointer: the new value of a key, or none if the key is
removed. -/
structure BigMapUpdate where
  pointer : Int
  key : Bytes
  value : Option Bytes
  deriving DecidableEq, Repr

namespace BigMapUpdate

def fieldNames : List String := ["ptr", "key", "value"]

/-- Bytes in hexadecimal, with any number of `0x` before them. -/
def bytesOfJson? (json : Json) : Option Bytes := do
  (Hex.decode (Hex.dropMarkers (← json.text?))).toOption

/-- An integer of 64 bits. -/
def pointerOfJson? (json : Json) : Option Int := do
  let value ← json.int?
  guard (Decimal.isInt64 value)
  return value

def ofJson? (json : Json) : Option BigMapUpdate := do
  guard (json.isRecord fieldNames)
  let pointer ← pointerOfJson? (← json.field? fieldNames "ptr")
  let key ← bytesOfJson? (← json.field? fieldNames "key")
  let value ← Json.optional? bytesOfJson? (json.field? fieldNames "value")
  return { pointer, key, value }

def toJson (u : BigMapUpdate) : Json :=
  .obj (Json.present [
    ("ptr", some (.num (.int u.pointer))),
    ("key", some (.str (Hex.encode u.key))),
    ("value", u.value.map fun data => .str (Hex.encode data))])

end BigMapUpdate

namespace Ty

/-! ### Enrichment -/

def total (counts : List Nat) : Nat :=
  counts.foldr (· + ·) 0

/-- The value that bytes write. -/
def settleBytes (ty : Ty) (data : Bytes) : Except Error Val := do
  ty.settle (← lift .binary (Binary.decodeOne data))

/-- The entries of a big map after an update. -/
def applyUpdate (key value : Ty) (pairs : List (Val × Val)) (u : BigMapUpdate) :
    Except Error (List (Val × Val)) := do
  let k ← key.settleBytes u.key
  match u.value with
  | some data => return (← Sorted.insert key.compare k (← value.settleBytes data) pairs).2
  | none => return (← Sorted.erase key.compare k pairs).2

/-- A value after updates of the big maps in it, and how many updates there were for one of
them.  Contents of big maps are not looked into. -/
def enrich (updates : List BigMapUpdate) : Ty → Val → Except Error (Val × Nat)
  | .bigMap _ key value, .entries (some pointer) pairs => do
    -- in the order in which they were given
    let chosen := updates.filter fun u => u.pointer == pointer
    let pairs ← chosen.foldlM (applyUpdate key value) pairs
    return (.entries (some pointer) pairs, chosen.length)
  | .pair _ left right, .pair a b comb => do
    let (a, first) ← enrich updates left a
    let (b, second) ← enrich updates right b
    return (.pair a b comb, first + second)
  | .or _ left _, .left a => do
    let (a, count) ← enrich updates left a
    return (.left a, count)
  | .or _ _ right, .right b => do
    let (b, count) ← enrich updates right b
    return (.right b, count)
  | .option _ inner, .some a => do
    let (a, count) ← enrich updates inner a
    return (.some a, count)
  | .list _ elem, .items values | .set _ elem, .items values =>
    enrichItems (enrich updates elem) values
  | .map _ _ value, .entries pointer pairs => do
    let done ← pairs.mapM fun (k, v) => do
      let (v, count) ← enrich updates value v
      return ((k, v), count)
    return (.entries pointer (done.map (·.1)), total (done.map (·.2)))
  | .ticket _ _ paired, v => enrich updates paired v
  | _, v => .ok (v, 0)
where
  /-- The items of a list after updates. -/
  enrichItems (enrich : Val → Except Error (Val × Nat)) (values : List Val) :
      Except Error (Val × Nat) := do
    let done ← values.mapM enrich
    return (.items (done.map (·.1)), total (done.map (·.2)))

/-! ### Pointers -/

/-- The pointers of the big maps in a value, from left to right. -/
def pointers : Ty → Val → List Int
  | .bigMap _ _ _, .entries (some pointer) _ => [pointer]
  | .pair _ left right, .pair a b _ => pointers left a ++ pointers right b
  | .or _ left _, .left a => pointers left a
  | .or _ _ right, .right b => pointers right b
  | .option _ inner, .some a => pointers inner a
  | .list _ elem, .items values | .set _ elem, .items values => values.flatMap (pointers elem)
  | .map _ _ value, .entries _ pairs => pairs.flatMap fun (_, v) => pointers value v
  | .ticket _ _ paired, v => pointers paired v
  | _, _ => []

end Ty

end Micheline
