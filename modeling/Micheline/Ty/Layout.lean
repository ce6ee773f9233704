/-
Micheline/Ty/Layout.lean

Pairs as records and choices as lists of branches.  An inner pair that no annotation names
counts as part of the pair around it, and likewise for choices; so a pair has members and
a choice has leaves, each with the path of sides that leads to it.
-/
import Micheline.Ty.Basic

namespace Micheline

/-- A side of a choice. -/
inductive Side where
  | left
  | right
  deriving DecidableEq, Repr

/-- What is on a side. -/
def Side.pick {α : Type} (left right : α) : Side → α
  | .left => left
  | .right => right

namespace Ty

/-- Whether the type is a pair that counts as part of a pair around it. -/
def isInnerPair : Ty → Bool
  | .pair info _ _ => !info.isNamed
  | _ => false

def isOr : Ty → Bool
  | .or _ _ _ => true
  | _ => false

/-- Whether the type is a choice that counts as part of a choice around it. -/
def isInnerOr : Ty → Bool
  | .or info _ _ => !info.isNamed
  | _ => false

/-- The members of a pair, from left to right. -/
def members : Ty → List Ty
  | .pair _ left right =>
    (if left.isInnerPair then left.members else [left])
      ++ (if right.isInnerPair then right.members else [right])
  | _ => []

/-- The leaves of a choice with their paths, from left to right. -/
def leaves : Ty → List (List Side × Ty)
  | .or _ left right =>
    ((if left.isInnerOr then left.leaves else [([], left)]).map fun (path, leaf) =>
        (Side.left :: path, leaf))
      ++ (if right.isInnerOr then right.leaves else [([], right)]).map fun (path, leaf) =>
        (Side.right :: path, leaf)
  | _ => []

/-- The types at the ends of nested choices, named or not, from left to right. -/
def branches : Ty → List Ty
  | .or _ left right => left.branches ++ right.branches
  | ty => [ty]

/-! ### Size -/

def size : Ty → Nat
  | .contract _ param => 1 + param.size
  | .pair _ left right | .or _ left right => 1 + left.size + right.size
  | .option _ inner => 1 + inner.size
  | .list _ elem | .set _ elem => 1 + elem.size
  | .map _ key value | .bigMap _ key value => 1 + key.size + value.size
  | .lambda _ param result => 1 + param.size + result.size
  | .ticket _ content paired => 1 + content.size + paired.size
  | _ => 1

/-- A member of a pair is smaller than the pair. -/
theorem size_lt_of_mem_members {ty m : Ty} (h : m ∈ ty.members) : m.size < ty.size := by
  induction ty with
  | pair info left right ihl ihr =>
    simp only [members, List.mem_append] at h
    simp only [size]
    rcases h with h | h
    · split at h
      · have := ihl h
        omega
      · obtain rfl := List.mem_singleton.1 h
        omega
    · split at h
      · have := ihr h
        omega
      · obtain rfl := List.mem_singleton.1 h
        omega
  | _ => simp [members] at h

/-- A leaf of a choice is smaller than the choice. -/
theorem size_lt_of_mem_leaves {ty : Ty} {leaf : List Side × Ty} (h : leaf ∈ ty.leaves) :
    leaf.2.size < ty.size := by
  induction ty generalizing leaf with
  | or info left right ihl ihr =>
    simp only [leaves, List.mem_append, List.mem_map] at h
    simp only [size]
    rcases h with ⟨x, h, rfl⟩ | ⟨x, h, rfl⟩
    · split at h
      · have := ihl h
        dsimp only
        omega
      · obtain rfl := List.mem_singleton.1 h
        dsimp only
        omega
    · split at h
      · have := ihr h
        dsimp only
        omega
      · obtain rfl := List.mem_singleton.1 h
        dsimp only
        omega
  | _ => simp [leaves] at h

/-- An end of nested choices is no larger than the type, and smaller than a choice. -/
theorem size_le_of_mem_branches {ty b : Ty} (h : b ∈ ty.branches) : b.size ≤ ty.size := by
  induction ty with
  | or info left right ihl ihr =>
    simp only [branches, List.mem_append] at h
    simp only [size]
    rcases h with h | h
    · have := ihl h
      omega
    · have := ihr h
      omega
  | _ =>
    simp only [branches, List.mem_singleton] at h
    subst h
    exact Nat.le_refl _

end Ty

end Micheline
