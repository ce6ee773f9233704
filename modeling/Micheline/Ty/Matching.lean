/-
Micheline/Ty/Matching.lean

When two types count as the same.  Annotations and numbers never matter.

* `Ty.sameShape` asks for the same primitives and arguments at the same places.
* `Ty.fits` lets the ends of nested choices stand in any order and grouping: each end of
  the one is given the first end of the other that fits and is not taken yet.
-/
import Micheline.Ty.Layout

namespace Micheline.Ty

/-- Whether two types agree but for annotations. -/
def sameShape : Ty → Ty → Bool
  | .unit _, .unit _ | .never _, .never _ | .operation _, .operation _ | .bool _, .bool _ => true
  | .scalar _ k, .scalar _ k' => k == k'
  | .contract _ p, .contract _ p' => p.sameShape p'
  | .pair _ l r, .pair _ l' r' | .or _ l r, .or _ l' r' => l.sameShape l' && r.sameShape r'
  | .option _ x, .option _ x' | .list _ x, .list _ x' | .set _ x, .set _ x' => x.sameShape x'
  | .map _ k v, .map _ k' v' | .bigMap _ k v, .bigMap _ k' v' => k.sameShape k' && v.sameShape v'
  | .lambda _ p r, .lambda _ p' r' => p.sameShape p' && r.sameShape r'
  -- the pair of a ticket follows from its content
  | .ticket _ c _, .ticket _ c' _ => c.sameShape c'
  | .saplingState _ m, .saplingState _ m' => m == m'
  | .saplingTransaction _ d m, .saplingTransaction _ d' m' => d == d' && m == m'
  | .constant _ h, .constant _ h' => h == h'
  | _, _ => false

/-- A list without its first element that satisfies `p`; none if there is no such element. -/
def removeFirst? {α : Type} (p : α → Bool) : List α → Option (List α)
  | [] => none
  | x :: xs => if p x then some xs else (removeFirst? p xs).map (x :: ·)

/-- Whether two types agree but for annotations and the order of the ends of choices. -/
def fits (a b : Ty) : Bool :=
  match a, b with
  | .or _ l r, .or _ l' r' =>
    (l.branches ++ r.branches).length == (l'.branches ++ r'.branches).length
      -- each end takes the first of the other ends that fits and is left
      && ((l.branches ++ r.branches).attach.foldlM
        (fun left x => removeFirst? (fun y => fits x.1 y) left)
        (l'.branches ++ r'.branches)).isSome
  | .contract _ p, .contract _ p' => fits p p'
  | .pair _ l r, .pair _ l' r' => fits l l' && fits r r'
  | .option _ x, .option _ x' | .list _ x, .list _ x' | .set _ x, .set _ x' => fits x x'
  | .map _ k v, .map _ k' v' | .bigMap _ k v, .bigMap _ k' v' => fits k k' && fits v v'
  | .lambda _ p r, .lambda _ p' r' => fits p p' && fits r r'
  | .ticket _ c _, .ticket _ c' _ => fits c c'
  | a, b => sameShape a b
termination_by a.size
decreasing_by
  · simp only [size]
    rcases List.mem_append.1 x.2 with h | h
    · have := size_le_of_mem_branches h
      omega
    · have := size_le_of_mem_branches h
      omega
  all_goals simp only [size]; omega

end Micheline.Ty
