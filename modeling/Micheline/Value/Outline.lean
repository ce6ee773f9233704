/-
Micheline/Value/Outline.lean

A value as an outline for reading: a line for each type with its number, name, primitive
and annotations, and what is known of its value; the lines of its parts stand below it,
indented by two blanks a level.
-/
import Micheline.Node.Michelson
import Micheline.Value.Basic

namespace Micheline.Ty

/-- What a line says about the value itself. -/
def outlineValue : Ty → Val → Option String
  | .bool _, .bool value => some (if value then "true" else "false")
  | .scalar _ _, .literal l | .contract _ _, .literal l => some l.text
  | .or _ _ _, .left _ => some "Left"
  | .or _ _ _, .right _ => some "Right"
  | .option _ _, .none => some "None"
  | .bigMap _ _ _, .entries (some pointer) [] => some ("ptr " ++ Decimal.ofInt pointer)
  | .lambda _ _ _, .code n | .saplingState _ _, .code n | .saplingTransaction _ _ _, .code n
    | .constant _ _, .code n => some n.michelson
  | _, _ => none

/-- The line of a type and its value. -/
def outlineLine (depth : Nat) (ty : Ty) (v : Val) : String :=
  let annots := ty.info.annots.map (" " ++ ·)
  let value := match ty.outlineValue v with
    | some text => [" = ", text]
    | none => []
  String.join ([String.ofList (List.replicate (2 * depth) ' '), "[", ty.info.id.repr, "] ",
    ty.name, " ", ty.prim.name] ++ annots ++ value)

/-- The lines of a type and its value; where there is no value, those of the types that it
would have. -/
def outline (depth : Nat) (ty : Ty) (v : Val) : List String :=
  let parts := match ty, v with
    | .pair _ left right, .pair a b _ =>
      outline (depth + 1) left a ++ outline (depth + 1) right b
    | .or _ left _, .left a => outline (depth + 1) left a
    | .or _ _ right, .right b => outline (depth + 1) right b
    -- Without a value both sides are outlined, blank.
    | .or _ left right, _ =>
      outline (depth + 1) left left.blank ++ outline (depth + 1) right right.blank
    | .option _ inner, .some a => outline (depth + 1) inner a
    | .option _ inner, _ => outline (depth + 1) inner inner.blank
    | .list _ elem, .items values | .set _ elem, .items values =>
      outlineItems (outline (depth + 1) elem) elem.blank values
    | .map _ key value, .entries _ pairs | .bigMap _ key value, .entries _ pairs =>
      if pairs.isEmpty then
        outline (depth + 1) key key.blank ++ outline (depth + 1) value value.blank
      else pairs.flatMap fun (k, w) => outline (depth + 1) key k ++ outline (depth + 2) value w
    | .contract _ param, _ => outline (depth + 1) param param.blank
    | .lambda _ param result, _ =>
      outline (depth + 1) param param.blank ++ outline (depth + 1) result result.blank
    | .ticket _ _ paired, v => outline (depth + 1) paired v
    | _, _ => []
  outlineLine depth ty v :: parts
where
  /-- The lines of items, or those of a blank one if there are none. -/
  outlineItems (lines : Val → List String) (blank : Val) (values : List Val) : List String :=
    if values.isEmpty then lines blank else values.flatMap lines

end Micheline.Ty
