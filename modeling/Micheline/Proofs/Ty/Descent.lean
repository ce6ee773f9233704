/-
Micheline/Proofs/Ty/Descent.lean

Ways down a choice.  A path of sides leads from a choice through the choices inside it, named
or not, as long as there are any (`Ty.follow?`).  Leaves stand where a path leaves the inner
choices for the first time: no path of a leaf begins with that of another one
(`Ty.pairwise_leaves`), and every path that leads out of the inner choices passes exactly one
leaf (`Ty.existsUnique_leaf`).
-/
import Mathlib.Data.List.Pairwise
import Micheline.Ty.Layout

namespace Micheline

namespace Ty

/-- The type that a path leads to, through choices that are named or not. -/
def follow? : Ty → List Side → Option Ty
  | ty, [] => some ty
  | .or _ left right, side :: path => (side.pick left right).follow? path
  | _, _ :: _ => none

/-- What a branch adds to the leaves of the choice around it, with the rest of the path: its own
leaves if it is an inner choice, else itself. -/
def branchEntries (ty : Ty) : List (List Side × Ty) :=
  if ty.isInnerOr then ty.leaves else [([], ty)]

variable {i : Info} {l r ty leaf t : Ty} {path : List Side}

theorem leaves_or (i : Info) (l r : Ty) :
    (or i l r).leaves = l.branchEntries.map (fun e => (.left :: e.1, e.2))
      ++ r.branchEntries.map (fun e => (.right :: e.1, e.2)) :=
  rfl

theorem isOr_of_isInnerOr (h : ty.isInnerOr = true) : ty.isOr = true := by
  cases ty with
  | or => rfl
  | _ => cases h

/-- A branch is a leaf, or has the leaves of a choice inside. -/
theorem mem_branchEntries_iff :
    (path, leaf) ∈ ty.branchEntries ↔ (ty.isInnerOr = true ∧ (path, leaf) ∈ ty.leaves)
      ∨ (ty.isInnerOr = false ∧ path = [] ∧ leaf = ty) := by
  rw [branchEntries]
  cases ty.isInnerOr <;> simp

/-- The leaves of a choice are on its two sides. -/
theorem mem_leaves_or_iff :
    (path, leaf) ∈ (or i l r).leaves
      ↔ ∃ side rest, path = side :: rest ∧ (rest, leaf) ∈ (side.pick l r).branchEntries := by
  rw [leaves_or, List.mem_append, List.mem_map, List.mem_map]
  constructor
  · rintro (⟨⟨rest, x⟩, hx, he⟩ | ⟨⟨rest, x⟩, hx, he⟩) <;> obtain ⟨rfl, rfl⟩ := Prod.mk.inj he
    · exact ⟨.left, rest, rfl, hx⟩
    · exact ⟨.right, rest, rfl, hx⟩
  · rintro ⟨_ | _, rest, rfl, hx⟩
    · exact .inl ⟨_, hx, rfl⟩
    · exact .inr ⟨_, hx, rfl⟩

/-! ### Where leaves stand -/

/-- **The path of a leaf leads to the leaf**, out of the inner choices. -/
theorem follow?_of_mem_leaves (h : (path, leaf) ∈ ty.leaves) :
    path ≠ [] ∧ ty.follow? path = some leaf ∧ leaf.isInnerOr = false := by
  induction path generalizing ty with
  | nil =>
    cases ty with
    | or =>
      obtain ⟨side, rest, hpath, -⟩ := mem_leaves_or_iff.1 h
      cases hpath
    | _ => cases h
  | cons side rest ih =>
    refine ⟨nofun, ?_⟩
    cases ty with
    | or i l r =>
      obtain ⟨side', rest', hpath, hrest⟩ := mem_leaves_or_iff.1 h
      obtain ⟨rfl, rfl⟩ := List.cons.inj hpath
      rw [follow?]
      obtain ⟨-, hinner⟩ | ⟨hinner, rfl, rfl⟩ := mem_branchEntries_iff.1 hrest
      · exact (ih hinner).2
      · exact ⟨rfl, hinner⟩
    | _ => cases h

/-- On the way to a leaf there are inner choices only. -/
theorem isInnerOr_of_isPrefix {before : List Side} (h : (path, leaf) ∈ ty.leaves)
    (hbegins : before <+: path) (hnil : before ≠ []) (hne : before ≠ path) :
    ∃ t, ty.follow? before = some t ∧ t.isInnerOr = true := by
  induction before generalizing ty path with
  | nil => exact absurd rfl hnil
  | cons side before ih =>
    cases ty with
    | or i l r =>
      obtain ⟨side', rest, rfl, hrest⟩ := mem_leaves_or_iff.1 h
      obtain ⟨rfl, hbefore⟩ := List.cons_prefix_cons.1 hbegins
      obtain ⟨hinner, hleaf⟩ | ⟨-, rfl, -⟩ := mem_branchEntries_iff.1 hrest
      · by_cases hnil : before = []
        · exact ⟨_, by rw [hnil]; rfl, hinner⟩
        · exact ih hleaf hbefore hnil fun he => hne (by rw [he])
      · exact absurd (by rw [List.prefix_nil.1 hbefore]) hne
    | _ => cases h

/-- Neither path begins with the other. -/
def Apart (a b : List Side × Ty) : Prop :=
  ¬a.1 <+: b.1 ∧ ¬b.1 <+: a.1

instance : Std.Symm Apart :=
  ⟨fun _ _ h => h.symm⟩

theorem apart_cons_iff {side : Side} {a b : List Side × Ty} :
    Apart (side :: a.1, a.2) (side :: b.1, b.2) ↔ Apart a b := by
  simp [Apart, List.cons_prefix_cons]

/-- **No path of a leaf begins with the path of another one.** -/
theorem pairwise_leaves (ty : Ty) : ty.leaves.Pairwise Apart := by
  have hside {c : Ty} (side : Side) (hc : c.leaves.Pairwise Apart) :
      (c.branchEntries.map fun e => (side :: e.1, e.2)).Pairwise Apart := by
    refine List.pairwise_map.2 (List.Pairwise.imp apart_cons_iff.2 ?_)
    rw [branchEntries]
    split
    next => exact hc
    next => exact List.pairwise_singleton _ _
  induction ty with
  | or i l r ihl ihr =>
    rw [leaves_or]
    refine List.pairwise_append.2 ⟨hside .left ihl, hside .right ihr, ?_⟩
    -- the paths on the two sides begin with different sides
    intro a ha b hb
    obtain ⟨x, -, rfl⟩ := List.mem_map.1 ha
    obtain ⟨y, -, rfl⟩ := List.mem_map.1 hb
    simp [Apart, List.cons_prefix_cons]
  | _ => exact .nil

/-- No two leaves of a choice have one path. -/
theorem nodup_leaves (ty : Ty) : (ty.leaves.map (·.1)).Nodup := by
  refine List.pairwise_map.2 ((pairwise_leaves ty).imp ?_)
  exact fun h heq => h.1 (heq ▸ List.prefix_rfl)

/-- No leaf's path leads through another leaf. -/
theorem eq_of_isPrefix {a b : List Side × Ty} (ha : a ∈ ty.leaves) (hb : b ∈ ty.leaves)
    (h : a.1 <+: b.1) : a = b := by
  by_contra hne
  exact ((pairwise_leaves ty).forall ha hb hne).1 h

/-! ### What every way down passes -/

/-- Every path to something that is no inner choice goes through a leaf. -/
theorem exists_leaf_of_follow? (hor : ty.isOr = true) (hpath : path ≠ [])
    (h : ty.follow? path = some t) (ht : t.isInnerOr = false) :
    ∃ leaf ∈ ty.leaves, leaf.1 <+: path := by
  induction path generalizing ty with
  | nil => exact absurd rfl hpath
  | cons side rest ih =>
    cases ty with
    | or i l r =>
      rw [follow?] at h
      by_cases hinner : (side.pick l r).isInnerOr = true
      -- A nameless choice below is not a leaf itself, so the path must go on into it.
      · have hrest : rest ≠ [] := by
          rintro rfl
          obtain rfl := Option.some.inj h
          cases hinner.symm.trans ht
        obtain ⟨⟨path, leaf⟩, hleaf, hbegins⟩ := ih (isOr_of_isInnerOr hinner) hrest h
        exact ⟨(side :: path, leaf),
          mem_leaves_or_iff.2 ⟨side, path, rfl, mem_branchEntries_iff.2 (.inl ⟨hinner, hleaf⟩)⟩,
          List.cons_prefix_cons.2 ⟨rfl, hbegins⟩⟩
      · exact ⟨([side], side.pick l r),
          mem_leaves_or_iff.2 ⟨side, [], rfl,
            mem_branchEntries_iff.2 (.inr ⟨Bool.eq_false_iff.2 hinner, rfl, rfl⟩)⟩,
          List.cons_prefix_cons.2 ⟨rfl, List.nil_prefix⟩⟩
    | _ => cases hor

/-- **Every way out of the inner choices passes exactly one leaf.** -/
theorem existsUnique_leaf (hor : ty.isOr = true) (hpath : path ≠ [])
    (h : ty.follow? path = some t) (ht : t.isInnerOr = false) :
    ∃! leaf, leaf ∈ ty.leaves ∧ leaf.1 <+: path := by
  obtain ⟨leaf, hleaf, hbegins⟩ := exists_leaf_of_follow? hor hpath h ht
  refine ⟨leaf, ⟨hleaf, hbegins⟩, ?_⟩
  rintro other ⟨hother, hbegins'⟩
  rcases List.prefix_or_prefix_of_prefix hbegins' hbegins with h | h
  · exact eq_of_isPrefix hother hleaf h
  · exact (eq_of_isPrefix hleaf hother h).symm

end Ty

end Micheline
