/-
Micheline/Value/Project.lean

Writing values as expressions, in one of three forms: as they were settled, with binary
literals, or with readable literals and all pairs binary.
-/
import Micheline.Value.Order

namespace Micheline

/-- A form in which values are written. -/
inductive ValueForm where
  /-- Literals and pairs as they were settled. -/
  | preserve
  /-- Literals in their binary form, pairs as they were settled. -/
  | optimized
  /-- Literals in their readable form, all pairs binary. -/
  | readable
  deriving DecidableEq, Repr

namespace ValueForm

def name : ValueForm → String
  | .preserve => "preserve"
  | .optimized => "optimized"
  | .readable => "readable"

def all : List ValueForm := [.preserve, .optimized, .readable]

def ofName? (name : String) : Option ValueForm :=
  all.find? fun form => form.name == name

/-- A literal in a form. -/
def literal (form : ValueForm) (content : Content) (l : Literal) : Except Error Literal :=
  match form with
  | .preserve => .ok l
  | .optimized => l.optimize content
  | .readable => l.readable content

end ValueForm

namespace Ty

/-- A pair whose parts are written already.  A first part that joins the members of the
second one stands before these, in whatever notation they have. -/
def writePair (comb : Comb) (first second : Node) : Node :=
  match comb, second with
  | .pair, _ => .app "Pair" [first, second]
  | .seq, _ => .seq [first, second]
  | .joined, .seq items => .seq (first :: items)
  | .joined, .prim name args annots => .prim name (first :: args) annots
  | .joined, _ => .app "Pair" [first, second]

/-- How a pair is written in a form. -/
def combIn (form : ValueForm) (comb : Comb) : Comb :=
  if form = .readable then .pair else comb

/-- The expression of a value. -/
def project (form : ValueForm) : Ty → Val → Except Error Node
  | .unit _, _ => .ok (.app "Unit" [])
  | .never _, _ => .error (.unsupported .never .projection)
  | .operation _, _ => .error (.unsupported .operation .projection)
  | .bool _, .bool true => .ok (.app "True" [])
  | .bool _, .bool false => .ok (.app "False" [])
  | .scalar _ kind, .literal l => do return (← form.literal kind.content l).node
  | .contract _ _, .literal l => do return (← form.literal (.identifier .address) l).node
  | .pair _ left right, .pair a b comb => do
    let first ← project form left a
    let second ← project form right b
    return writePair (combIn form comb) first second
  | .or _ left _, .left a => do return .app "Left" [← project form left a]
  | .or _ _ right, .right b => do return .app "Right" [← project form right b]
  | .option _ _, .none => .ok (.app "None" [])
  | .option _ inner, .some a => do return .app "Some" [← project form inner a]
  | .list _ elem, .items values | .set _ elem, .items values =>
    do return .seq (← values.mapM (project form elem))
  | .map _ key value, .entries _ pairs => do
    return .seq (← pairs.mapM (projectEntry (project form key) (project form value)))
  | .bigMap _ key value, .entries pointer pairs =>
    match pointer, pairs with
    -- Entries that were brought in are written in place of the pointer.
    | some id, [] => .ok (.int id)
    | _, pairs => do
      return .seq (← pairs.mapM (projectEntry (project form key) (project form value)))
  | .lambda _ _ _, .code n => .ok n
  -- A ticket is written as the pair that it holds.
  | .ticket _ _ paired, v => project form paired v
  | .saplingState _ _, .code n | .saplingTransaction _ _ _, .code n | .constant _ _, .code n =>
    .ok n
  | _, _ => .error .notSettled
where
  /-- The expression of an entry. -/
  projectEntry (key value : Val → Except Error Node) (pair : Val × Val) : Except Error Node := do
    let k ← key pair.1
    let v ← value pair.2
    return .app "Elt" [k, v]

end Ty

def Typed.project (form : ValueForm) (t : Typed) : Except Error Node :=
  t.ty.project form t.val

end Micheline
