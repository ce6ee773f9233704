/-
Micheline/Value/Basic.lean

Values of types.  A value does not repeat its type; what a value means is said by functions
that take both.  A type without a value yet has a blank one: its choices and literals are
unset, and its collections are empty.

A pair remembers how it was written, so that it can be written the same way again.
-/
import Micheline.Ty.Layout

namespace Micheline

/-- How a pair is written. -/
inductive Comb where
  /-- `Pair a b` -/
  | pair
  /-- `{ a ; b }` -/
  | seq
  /-- The first part joins the members of the second one, in the notation of that. -/
  | joined
  deriving DecidableEq, Repr

inductive Val where
  | unset
  | unit
  | bool (value : Bool)
  | literal (value : Literal)
  | pair (first second : Val) (comb : Comb)
  | left (value : Val)
  | right (value : Val)
  | none
  | some (value : Val)
  /-- The items of a list, or the elements of a set in ascending order. -/
  | items (values : List Val)
  /-- The entries of a map in ascending order of their keys.  A big map may have a pointer
  to contents that are kept elsewhere. -/
  | entries (pointer : Option Int) (pairs : List (Val × Val))
  /-- Code, or anything else that is kept as it was written. -/
  | code (node : Node)
  deriving Repr, Inhabited

namespace Val

/-! ### Equality -/

mutual

def beq : Val → Val → Bool
  | .unset, .unset | .unit, .unit => true
  | .bool a, .bool b | .literal a, .literal b => a == b
  | .pair a b s, .pair c d t => beq a c && beq b d && s == t
  | .left a, .left b | .right a, .right b => beq a b
  | .none, .none => true
  | .some a, .some b => beq a b
  | .items a, .items b => beqAll a b
  | .entries p a, .entries q b => p == q && beqPairs a b
  | .code a, .code b => a == b
  | _, _ => false

def beqAll : List Val → List Val → Bool
  | [], [] => true
  | a :: as, b :: bs => beq a b && beqAll as bs
  | _, _ => false

def beqPairs : List (Val × Val) → List (Val × Val) → Bool
  | [], [] => true
  | (k, v) :: as, (k', v') :: bs => beq k k' && beq v v' && beqPairs as bs
  | _, _ => false

end

mutual

theorem beq_iff : ∀ a b : Val, beq a b = true ↔ a = b
  | .unset, b => by cases b <;> simp [beq]
  | .unit, b => by cases b <;> simp [beq]
  | .bool a, b => by cases b <;> simp [beq]
  | .literal a, b => by cases b <;> simp [beq]
  | .pair x y s, b => by cases b <;> simp [beq, beq_iff x, beq_iff y, and_assoc]
  | .left a, b => by cases b <;> simp [beq, beq_iff a]
  | .right a, b => by cases b <;> simp [beq, beq_iff a]
  | .none, b => by cases b <;> simp [beq]
  | .some a, b => by cases b <;> simp [beq, beq_iff a]
  | .items a, b => by cases b <;> simp [beq, beqAll_iff a]
  | .entries p a, b => by cases b <;> simp [beq, beqPairs_iff a]
  | .code a, b => by cases b <;> simp [beq]

theorem beqAll_iff : ∀ as bs : List Val, beqAll as bs = true ↔ as = bs
  | [], bs => by cases bs <;> simp [beqAll]
  | a :: as, bs => by cases bs <;> simp [beqAll, beq_iff a, beqAll_iff as]

theorem beqPairs_iff : ∀ as bs : List (Val × Val), beqPairs as bs = true ↔ as = bs
  | [], bs => by cases bs <;> simp [beqPairs]
  | (k, v) :: as, bs => by
    rcases bs with _ | ⟨⟨k', v'⟩, bs⟩ <;>
      simp [beqPairs, beq_iff k, beq_iff v, beqPairs_iff as, and_assoc]

end

instance : DecidableEq Val := fun a b =>
  decidable_of_iff (beq a b = true) (beq_iff a b)

end Val

/-- The value of a type that nothing was read into. -/
def Ty.blank : Ty → Val
  | .unit _ => .unit
  | .pair _ left right => .pair left.blank right.blank .pair
  | .option _ _ => .none
  | .list _ _ | .set _ _ => .items []
  | .map _ _ _ | .bigMap _ _ _ => .entries none []
  | .ticket _ _ paired => paired.blank
  | _ => .unset

/-! ### A value with its type -/

/-- A value together with its type. -/
structure Typed where
  ty : Ty
  val : Val
  deriving DecidableEq, Repr

namespace Typed

/-- The members of a pair with their values, from left to right. -/
def members : Ty → Val → List Typed
  | .pair _ left right, .pair a b _ =>
    (if left.isInnerPair then members left a else [⟨left, a⟩])
      ++ (if right.isInnerPair then members right b else [⟨right, b⟩])
  | _, _ => []

/-- The leaf of a choice that its value takes, with its path and its value. -/
def activeLeaf? : Ty → Val → Option (List Side × Typed)
  | .or _ left _, .left a =>
    if left.isInnerOr then
      (activeLeaf? left a).map fun (path, leaf) => (Side.left :: path, leaf)
    else some ([.left], ⟨left, a⟩)
  | .or _ _ right, .right b =>
    if right.isInnerOr then
      (activeLeaf? right b).map fun (path, leaf) => (Side.right :: path, leaf)
    else some ([.right], ⟨right, b⟩)
  | _, _ => none

/-- A member of a pair is smaller than the pair. -/
theorem size_lt_of_mem_members {ty : Ty} {v : Val} {m : Typed} (h : m ∈ members ty v) :
    m.ty.size < ty.size := by
  induction ty generalizing v with
  | pair info left right ihl ihr =>
    cases v with
    | pair a b comb =>
      simp only [members, List.mem_append] at h
      simp only [Ty.size]
      rcases h with h | h
      · split at h
        · have := ihl h
          omega
        · obtain rfl := List.mem_singleton.1 h
          dsimp only
          omega
      · split at h
        · have := ihr h
          omega
        · obtain rfl := List.mem_singleton.1 h
          dsimp only
          omega
    | _ => simp [members] at h
  | _ => simp [members] at h

/-- The leaf that the value of a choice takes is smaller than the choice. -/
theorem size_lt_of_activeLeaf? {ty : Ty} {v : Val} {path : List Side} {leaf : Typed}
    (h : activeLeaf? ty v = some (path, leaf)) : leaf.ty.size < ty.size := by
  induction ty generalizing v path leaf with
  | or info left right ihl ihr =>
    simp only [Ty.size]
    cases v with
    | left a =>
      simp only [activeLeaf?] at h
      split at h
      · obtain ⟨⟨p, x⟩, hx, he⟩ := Option.map_eq_some_iff.1 h
        obtain ⟨-, rfl⟩ := Prod.mk.inj he
        have := ihl hx
        dsimp only
        omega
      · obtain ⟨-, rfl⟩ := Prod.mk.inj (Option.some.inj h)
        dsimp only
        omega
    | right b =>
      simp only [activeLeaf?] at h
      split at h
      · obtain ⟨⟨p, x⟩, hx, he⟩ := Option.map_eq_some_iff.1 h
        obtain ⟨-, rfl⟩ := Prod.mk.inj he
        have := ihr hx
        dsimp only
        omega
      · obtain ⟨-, rfl⟩ := Prod.mk.inj (Option.some.inj h)
        dsimp only
        omega
    | _ => simp [activeLeaf?] at h
  | _ => simp [activeLeaf?] at h

end Typed

end Micheline
