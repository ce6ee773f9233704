/-
Micheline/Value/Order.lean

The order of values.  Pairs are ordered by their first parts and then by their second ones,
a left side stands before a right one, and no value before any value.
-/
import Micheline.Value.Basic
import Micheline.Value.Literal

namespace Micheline

/-- The order of two optional literals of one type. -/
def Val.orderLiterals (prim : Prim) (content : Content) : Val → Val → Except Error Ordering
  | .literal a, .literal b => Literal.order prim content a b
  | _, _ => .error .notSettled

/-- The order of two values, each with its type.  Values of types with different primitives
have none. -/
def compareValues : Ty → Val → Ty → Val → Except Error Ordering
  | .unit _, _, .unit _, _ => .ok .eq
  | .bool _, a, .bool _, b =>
    match a, b with
    | .bool a, .bool b => .ok (compare a b)
    | _, _ => .error .notSettled
  | .scalar i k, a, .scalar i' k', b =>
    if k = k' then Val.orderLiterals (.scalar k) k.content a b
    else .error (.notComparable (Ty.scalar i k).prim (Ty.scalar i' k').prim)
  | .contract _ _, a, .contract _ _, b => Val.orderLiterals .contract (.identifier .address) a b
  | .pair _ l r, x, .pair _ l' r', y =>
    match x, y with
    | .pair a b _, .pair c d _ => do
      match ← compareValues l a l' c with
      | .eq => compareValues r b r' d
      | order => return order
    | _, _ => .error .notSettled
  | .or _ l r, x, .or _ l' r', y =>
    match x, y with
    | .left a, .left b => compareValues l a l' b
    | .right a, .right b => compareValues r a r' b
    -- The left side comes before the right one, and nothing before something.
    | .left _, .right _ => .ok .lt
    | .right _, .left _ => .ok .gt
    | _, _ => .error .notSettled
  | .option _ t, x, .option _ t', y =>
    match x, y with
    | .none, .none => .ok .eq
    | .none, .some _ => .ok .lt
    | .some _, .none => .ok .gt
    | .some a, .some b => compareValues t a t' b
    | _, _ => .error .notSettled
  | s, _, t, _ => .error (.notComparable s.prim t.prim)

/-- The order of two values of one type. -/
def Ty.compare (ty : Ty) (a b : Val) : Except Error Ordering :=
  compareValues ty a ty b

def Typed.compare (a b : Typed) : Except Error Ordering :=
  compareValues a.ty a.val b.ty b.val

end Micheline
