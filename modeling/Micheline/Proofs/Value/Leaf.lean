/-
Micheline/Proofs/Value/Leaf.lean

The members of a pair and the leaf that a choice takes.  The way to the leaf goes from side to
side through inner choices (`Ty.TakesLeaf`), so that what is said of the leaf is proved along
the way, for both sides at once.
-/
import Micheline.Proofs.Ty.Descent
import Micheline.Proofs.Value.Settled

namespace Micheline

/-- The value that takes a side of a choice. -/
def Side.val : Side → Val → Val
  | .left => .left
  | .right => .right

namespace Ty

/-- The way to the leaf that a value takes. -/
inductive TakesLeaf : Ty → Val → List Side → Typed → Prop
  | leaf {i l r a} {side : Side} (h : (side.pick l r).isInnerOr = false) :
    TakesLeaf (or i l r) (side.val a) [side] ⟨side.pick l r, a⟩
  | inner {i l r a path x} {side : Side} (h : (side.pick l r).isInnerOr = true)
      (hx : TakesLeaf (side.pick l r) a path x) :
    TakesLeaf (or i l r) (side.val a) (side :: path) x

variable {i : Info} {l r ty : Ty} {a v w : Val} {path : List Side} {side : Side} {x y : Typed}
  {loaded : Bool}

/-- The members of a pair are of the types' members. -/
theorem map_ty_members (hv : ty.Holds loaded v) :
    (Typed.members ty v).map (·.ty) = ty.members := by
  induction hv with
  | @pair i l r a b comb _ _ _ iha ihb =>
    rw [Typed.members, members, List.map_append]
    congr 1
    · split
      next => exact iha
      next => rfl
    · split
      next => exact ihb
      next => rfl
  | _ => rfl

/-! ### Leaves -/

/-- The active leaf is that of the side, if this is a choice inside, or else the side itself. -/
theorem activeLeaf?_val : Typed.activeLeaf? (or i l r) (side.val a)
    = if (side.pick l r).isInnerOr then
        (Typed.activeLeaf? (side.pick l r) a).map fun leaf => (side :: leaf.1, leaf.2)
      else some ([side], ⟨side.pick l r, a⟩) := by
  cases side <;> rfl

/-- A leaf is the active one exactly if there is a way to it. -/
theorem activeLeaf?_eq_some_iff :
    Typed.activeLeaf? ty v = some (path, x) ↔ TakesLeaf ty v path x := by
  constructor
  · intro h
    induction ty generalizing v path with
    | or i l r ihl ihr =>
      -- Each side is the same argument, once what the induction says of it is at hand.
      have hside {side : Side} {a : Val}
          (ih : ∀ {rest}, Typed.activeLeaf? (side.pick l r) a = some (rest, x) →
            TakesLeaf (side.pick l r) a rest x)
          (h : Typed.activeLeaf? (or i l r) (side.val a) = some (path, x)) :
          TakesLeaf (or i l r) (side.val a) path x := by
        rw [activeLeaf?_val] at h
        split at h
        next hinner =>
          obtain ⟨⟨rest, x'⟩, hx, he⟩ := Option.map_eq_some_iff.1 h
          obtain ⟨rfl, rfl⟩ := Prod.mk.inj he
          exact .inner hinner (ih hx)
        next hinner =>
          obtain ⟨rfl, rfl⟩ := Prod.mk.inj (Option.some.inj h)
          exact .leaf (Bool.eq_false_iff.2 hinner)
      cases v with
      | left a => exact @hside .left a ihl h
      | right b => exact @hside .right b ihr h
      | _ => cases h
    | _ => cases v <;> cases h
  · intro h
    induction h with
    | leaf h => rw [activeLeaf?_val, h, if_neg Bool.false_ne_true]
    | inner h _ ih =>
      rw [activeLeaf?_val, if_pos h, ih]
      rfl

/-- A choice holds one of its sides. -/
theorem exists_val_of_holds (hv : (or i l r).Holds loaded v) :
    ∃ side a, v = Side.val side a ∧ (side.pick l r).Holds loaded a := by
  cases hv with
  | left ha => exact ⟨.left, _, rfl, ha⟩
  | right hb => exact ⟨.right, _, rfl, hb⟩

theorem TakesLeaf.ne_nil (h : TakesLeaf ty v path x) : path ≠ [] := by
  cases h <;> exact List.cons_ne_nil _ _

/-- **A choice takes a leaf.** -/
theorem exists_takesLeaf (hor : ty.isOr = true) (hv : ty.Holds loaded v) :
    ∃ path leaf, TakesLeaf ty v path leaf := by
  induction ty generalizing v with
  | or i l r ihl ihr =>
    have ih : ∀ side : Side, ∀ {a}, (side.pick l r).isOr = true → (side.pick l r).Holds loaded a →
        ∃ path leaf, TakesLeaf (side.pick l r) a path leaf
      | .left, _ => ihl
      | .right, _ => ihr
    obtain ⟨side, a, rfl, ha⟩ := exists_val_of_holds hv
    by_cases hinner : (side.pick l r).isInnerOr = true
    · obtain ⟨path, leaf, h⟩ := ih side (isOr_of_isInnerOr hinner) ha
      exact ⟨_, _, .inner hinner h⟩
    · exact ⟨_, _, .leaf (Bool.eq_false_iff.2 hinner)⟩
  | _ => cases hor

theorem exists_activeLeaf? (hv : (or i l r).Holds loaded v) :
    ∃ path leaf, Typed.activeLeaf? (or i l r) v = some (path, leaf) := by
  obtain ⟨path, leaf, h⟩ := exists_takesLeaf rfl hv
  exact ⟨path, leaf, activeLeaf?_eq_some_iff.2 h⟩

/-- The leaf that a choice takes is one of its leaves. -/
theorem mem_leaves_of_activeLeaf? (h : Typed.activeLeaf? ty v = some (path, x)) :
    (path, x.ty) ∈ ty.leaves := by
  rw [activeLeaf?_eq_some_iff] at h
  induction h with
  | leaf h => exact mem_leaves_or_iff.2 ⟨_, _, rfl, mem_branchEntries_iff.2 (.inr ⟨h, rfl, rfl⟩)⟩
  | inner h _ ih => exact mem_leaves_or_iff.2 ⟨_, _, rfl, mem_branchEntries_iff.2 (.inl ⟨h, ih⟩)⟩

/-- Leaves with one path have one type. -/
theorem ty_eq_of_activeLeaf? (hx : Typed.activeLeaf? ty v = some (path, x))
    (hy : Typed.activeLeaf? ty w = some (path, y)) : x.ty = y.ty :=
  congrArg Prod.snd
    (eq_of_isPrefix (mem_leaves_of_activeLeaf? hx) (mem_leaves_of_activeLeaf? hy) List.prefix_rfl)

end Ty

end Micheline
