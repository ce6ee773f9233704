/-
Micheline/Value/Settle.lean

Reading expressions as values of types.  A constructor must have exactly the arguments that
the type allows; of the two booleans only the name is looked at.  Sets and maps are sorted
as they are read: of equal elements the first one stays, of equal keys the first key with
the last value.
-/
import Micheline.Value.Order
import Micheline.Value.Sorted

namespace Micheline.Ty

/-! ### Shapes of expressions -/

/-- The arguments of a constructor that must have `count` of them. -/
def constructorArgs (constructor : String) (count : Nat) (n : Node) : Except Error (List Node) :=
  match n with
  | .prim name args _ =>
    if name = constructor then
      if args.length = count then .ok args
      else .error (.different (.arguments constructor count args.length))
    else .error (.mismatch constructor n.describe)
  | _ => .error (.mismatch constructor n.describe)

/-- The items of a sequence of something. -/
def sequenceOf (what : String) (n : Node) : Except Error (List Node) :=
  match n with
  | .seq items => .ok items
  | _ => .error (.mismatch ("sequence of " ++ what) n.describe)

def onlyArg (constructor : String) (n : Node) : Except Error Node := do
  match ← constructorArgs constructor 1 n with
  | [arg] => return arg
  | args => throw (.different (.arguments constructor 1 args.length))

/-- The key and the value of an entry. -/
def entry (n : Node) : Except Error (Node × Node) := do
  match ← constructorArgs "Elt" 2 n with
  | [key, value] => return (key, value)
  | args => throw (.different (.arguments "Elt" 2 args.length))

/-- The members that a pair is written with, and whether they stand in a sequence. -/
def pairMembers (n : Node) : Except Error (List Node × Bool) :=
  match n with
  | .seq items => .ok (items, true)
  | .prim name args _ =>
    if name = "Pair" then .ok (args, false) else .error (.mismatch "Pair" n.describe)
  | _ => .error (.mismatch "Pair" n.describe)

/-- The first member of a pair, an expression for the rest in the notation of the whole, and
how the pair is written.  More than two members need a pair at the second place. -/
def splitPair (nested : Bool) (n : Node) : Except Error (Node × Node × Comb) := do
  let (members, listed) ← pairMembers n
  match members with
  | [] => throw (.different (.fewMembers 0))
  | [_] => throw (.different (.fewMembers 1))
  | [first, second] => return (first, second, if listed then .seq else .pair)
  -- the others are written as one pair, in the notation of the whole
  | first :: rest =>
    if nested then return (first, if listed then .seq rest else .app "Pair" rest, .joined)
    else throw (.different (.manyMembers (rest.length + 1)))

def isPair : Ty → Bool
  | .pair _ _ _ => true
  | _ => false

/-- The pointer of a big map: an integer of 64 bits. -/
def pointer (value : Int) : Except Error Int :=
  if Decimal.isInt64 value then .ok value
  else .error (.mismatch "big_map pointer" (Node.int value).describe)

/-! ### Values -/

def settle : Ty → Node → Except Error Val
  | .unit _, n => do
    let _ ← constructorArgs "Unit" 0 n
    return .unit
  | .never _, n => .error (.mismatch "no value for never" n.describe)
  | .operation _, _ => .error (.unsupported .operation .settling)
  | .bool _, n =>
    -- arguments are not looked at
    if n.name? = some "True" then .ok (.bool true)
    else if n.name? = some "False" then .ok (.bool false)
    else .error (.mismatch "True or False" n.describe)
  | .scalar _ kind, n => do return .literal (← Literal.accept (.scalar kind) kind.content n)
  | .contract _ _, n => do
    return .literal (← Literal.accept .contract (.identifier .address) n)
  | .pair _ left right, n => do
    let (first, second, comb) ← splitPair right.isPair n
    let first ← settle left first
    let second ← settle right second
    return .pair first second comb
  | .or _ left right, n =>
    if n.name? = some "Left" then do
      return .left (← settle left (← onlyArg "Left" n))
    else if n.name? = some "Right" then do
      return .right (← settle right (← onlyArg "Right" n))
    else .error (.mismatch "Left or Right" n.describe)
  | .option _ inner, n =>
    if n.name? = some "None" then do
      let _ ← constructorArgs "None" 0 n
      return .none
    else if n.name? = some "Some" then do
      return .some (← settle inner (← onlyArg "Some" n))
    else .error (.mismatch "None or Some" n.describe)
  | .list _ elem, n => do
    let items ← sequenceOf "list items" n
    return .items (← items.mapM (settle elem))
  | .set _ elem, n => do
    let items ← sequenceOf "set items" n
    let values ← items.foldlM (fun done item => do
      Sorted.add elem.compare (← settle elem item) done) []
    return .items values
  | .map _ key value, n => do
    return .entries none (← settleEntries (settle key) (settle value) key.compare n)
  | .bigMap _ key value, n =>
    match n with
    -- the entries behind a pointer are not there yet
    | .int id => do return .entries (some (← pointer id)) []
    | _ => do return .entries none (← settleEntries (settle key) (settle value) key.compare n)
  | .lambda _ _ _, n =>
    match n with
    | .seq _ => .ok (.code n)
    | _ =>
      if n.name? = some "Lambda_rec" then .ok (.code n)
      else .error (.mismatch "lambda code" n.describe)
  -- a ticket is written as the pair of its ticketer, its content and its amount
  | .ticket _ _ paired, n => settle paired n
  | .saplingState _ _, n =>
    match n with
    | .int _ => .ok (.code n)
    | .seq _ => .ok (.code n)
    | _ => .error (.mismatch "sapling state" n.describe)
  | .saplingTransaction i d m, n => do
    -- any bytes will do; they are kept as they are
    let _ ← Literal.accept (Ty.saplingTransaction i d m).prim .blob n
    return .code n
  | .constant _ _, n => .ok (.code n)
where
  /-- The entries that an expression writes, in ascending order. -/
  settleEntries (key value : Node → Except Error Val) (cmp : Val → Val → Except Error Ordering)
      (n : Node) : Except Error (List (Val × Val)) := do
    let items ← sequenceOf "Elt" n
    items.foldlM (fun done item => do
      let (k, v) ← entry item
      let k ← key k
      let v ← value v
      return (← Sorted.insert cmp k v done).2) []

end Micheline.Ty
