/-
Micheline/Ty/Typing.lean

Reading expressions as types.  The types of a tree are numbered in the order in which they
are met: a type before its parts, the parts from left to right, the content of a ticket
before the pair that its values are written as.

A pair of more than two members is a pair of the first one and the pair of the others,
which has no annotations.
-/
import Micheline.Error
import Micheline.Ty.Basic

namespace Micheline.Ty

/-- A step that may fail and takes numbers for the types it makes. -/
abbrev Numbered (α : Type) := StateT Nat (Except Error) α

/-- Takes the next number. -/
def fresh (depth : Nat) (annots : List String) : Numbered Info :=
  modifyGet fun id => (⟨id, depth, annots⟩, id + 1)

def memoSize : Node → Except Error Int
  | .int size => .ok size
  | n => .error (.mismatch "memo size" n.describe)

def constantHash : Node → Except Error String
  | .string hash => .ok hash
  | n => .error (.mismatch "constant hash" n.describe)

/-- A type without arguments. -/
def plain (info : Info) : Prim → Option Ty
  | .unit => some (.unit info)
  | .never => some (.never info)
  | .operation => some (.operation info)
  | .bool => some (.bool info)
  | .scalar kind => some (.scalar info kind)
  | _ => none

mutual

/-- The type that an expression writes at a depth. -/
def ofNodeAt (depth : Nat) : Node → Numbered Ty
  | .prim name args annots =>
    match Prim.ofAnyCase? name with
    | none => throw (.unknownPrim name)
    | some prim => do
      if !prim.arity.accepts args.length then
        throw (.arity prim.name prim.arity args.length)
      -- a type is numbered before its parts
      let info ← fresh depth (Annot.valid annots)
      match prim, args with
      | .contract, [param] => return .contract info (← ofNodeAt (depth + 1) param)
      | .pair, args => pairOf info args
      | .or, [left, right] =>
        let left ← ofNodeAt (depth + 1) left
        return .or info left (← ofNodeAt (depth + 1) right)
      | .option, [inner] => return .option info (← ofNodeAt (depth + 1) inner)
      | .list, [elem] => return .list info (← ofNodeAt (depth + 1) elem)
      | .set, [elem] => return .set info (← ofNodeAt (depth + 1) elem)
      | .map, [key, value] =>
        let key ← ofNodeAt (depth + 1) key
        return .map info key (← ofNodeAt (depth + 1) value)
      | .bigMap, [key, value] =>
        let key ← ofNodeAt (depth + 1) key
        return .bigMap info key (← ofNodeAt (depth + 1) value)
      | .lambda, [param, result] =>
        let param ← ofNodeAt (depth + 1) param
        return .lambda info param (← ofNodeAt (depth + 1) result)
      | .ticket, [node] =>
        let content ← ofNodeAt (depth + 1) node
        -- the pair of the ticketer, the content and the amount that values are written as
        let outer ← fresh (depth + 1) []
        let ticketer ← fresh (depth + 2) ["%ticketer"]
        let inner ← fresh (depth + 2) []
        let again ← ofNodeAt (depth + 3) node
        let amount ← fresh (depth + 3) ["%amount"]
        return .ticket info content
          (.pair outer (.scalar ticketer .address)
            (.pair inner again (.scalar amount .nat)))
      | .saplingState, [size] => return .saplingState info (← memoSize size)
      | .saplingTransaction, [size] => return .saplingTransaction info false (← memoSize size)
      | .saplingTransactionDeprecated, [size] =>
        return .saplingTransaction info true (← memoSize size)
      | .constant, [hash] => return .constant info (← constantHash hash)
      | prim, args =>
        match plain info prim with
        | some ty => return ty
        | none => throw (.arity prim.name prim.arity args.length)
  | n => throw (.mismatch "type primitive" n.describe)

/-- The pair of two members or more. -/
def pairOf (info : Info) : List Node → Numbered Ty
  | [left, right] => do
    let left ← ofNodeAt (info.depth + 1) left
    return .pair info left (← ofNodeAt (info.depth + 1) right)
  | left :: rest => do
    let left ← ofNodeAt (info.depth + 1) left
    -- The pair of what is left gets its number after the first member, and no annotations.
    let inner ← fresh (info.depth + 1) []
    return .pair info left (← pairOf inner rest)
  | [] => throw (.arity Prim.pair.name Prim.pair.arity 0)

end

def ofNode (n : Node) : Except Error Ty := do
  return (← (ofNodeAt 0 n).run 0).1

/-- The types that expressions write, numbered from zero on one after another. -/
def ofNodes (ns : List Node) : Except Error (List Ty) := do
  return (← (ns.mapM (ofNodeAt 0)).run 0).1

end Micheline.Ty
