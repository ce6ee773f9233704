/-
Micheline/Proofs/Ty/Revised.lean

Revising a choice.  Its authors exchange and regroup its branches, add new ones, rename what is
annotated inside the leaves, and write these in another way that fits (`Ty.Revises`).  However
often they do, each leaf has a counterpart in the result: one that fits, under the same name if
the leaf had one (`keeps_of_revised`).

The counterpart of a leaf without a name has none either and is called otherwise, since such a
leaf is called by its number.
-/
import Micheline.Proofs.Ty.Matching

namespace Micheline.Ty

/-! ### The leaves of a branch -/

/-- What a branch adds to the leaves of the choice around it: its own leaves if it is an inner
choice, else itself. -/
def branchLeaves (ty : Ty) : List Ty :=
  if ty.isInnerOr then ty.leaves.map (·.2) else [ty]

theorem map_snd_leaves_or (i : Info) (left right : Ty) :
    (or i left right).leaves.map (·.2) = left.branchLeaves ++ right.branchLeaves := by
  rw [leaves, List.map_append]
  congr 1
  all_goals
    rw [List.map_map, branchLeaves]
    split <;> rfl

theorem branchLeaves_of_not_isInnerOr {ty : Ty} (h : ty.isInnerOr = false) :
    ty.branchLeaves = [ty] := by
  rw [branchLeaves, h]
  rfl

/-- A choice without a name has the branches of both sides. -/
theorem branchLeaves_or {i : Info} (hi : i.isNamed = false) (left right : Ty) :
    (or i left right).branchLeaves = left.branchLeaves ++ right.branchLeaves := by
  rw [branchLeaves, isInnerOr, hi]
  exact map_snd_leaves_or i left right

/-! ### Counterparts -/

/-- Every type of a list has a counterpart in the other list: one that fits, under the same
name if an annotation names it. -/
def Keeps (xs ys : List Ty) : Prop :=
  ∀ x ∈ xs, ∃ y ∈ ys,
    x.fits y = true ∧ (x.isNamed = true → y.info.givenName? = x.info.givenName?)

namespace Keeps

variable {xs ys zs xs' ys' : List Ty}

theorem of_subset (h : xs ⊆ ys) : Keeps xs ys :=
  fun x hx => ⟨x, h hx, fits_refl x, fun _ => rfl⟩

theorem trans (h : Keeps xs ys) (h' : Keeps ys zs) : Keeps xs zs := by
  intro x hx
  obtain ⟨y, hy, hxy, hname⟩ := h x hx
  obtain ⟨z, hz, hyz, hname'⟩ := h' y hy
  refine ⟨z, hz, fits_trans hxy hyz, fun hnamed => ?_⟩
  have hy' : y.isNamed = true := by
    rw [isNamed, Info.isNamed, hname hnamed]
    exact hnamed
  exact (hname' hy').trans (hname hnamed)

theorem append (h : Keeps xs ys) (h' : Keeps xs' ys') : Keeps (xs ++ xs') (ys ++ ys') := by
  intro x hx
  rcases List.mem_append.1 hx with hx | hx
  · exact (h x hx).imp fun y hy => ⟨List.mem_append_left _ hy.1, hy.2⟩
  · exact (h' x hx).imp fun y hy => ⟨List.mem_append_right _ hy.1, hy.2⟩

theorem singleton {x y : Ty} (h : x.fits y = true)
    (hname : y.info.givenName? = x.info.givenName?) : Keeps [x] [y] := by
  intro x' hx'
  obtain rfl := List.mem_singleton.1 hx'
  exact ⟨y, List.mem_singleton_self y, h, fun _ => hname⟩

end Keeps

/-! ### Steps and runs -/

/-- One revision of a branch of a choice.  Only choices that no annotation names are rearranged;
another one is a leaf. -/
inductive Revises : Ty → Ty → Prop
  /-- Types are numbered anew, at another place. -/
  | renumber {a b : Ty} (h : a.node = b.node) : Revises a b
  /-- Branches are exchanged. -/
  | swap {i j : Info} {a b : Ty} (hi : i.isNamed = false) (hj : j.isNamed = false) :
    Revises (or i a b) (or j b a)
  /-- A choice on the left is grouped to the right. -/
  | regroup {i j : Info} {a b c : Ty} (hi : i.isNamed = false) (hj : j.isNamed = false) :
    Revises (or i (or j a b) c) (or i a (or j b c))
  /-- A choice on the right is grouped to the left. -/
  | ungroup {i j : Info} {a b c : Ty} (hi : i.isNamed = false) (hj : j.isNamed = false) :
    Revises (or i a (or j b c)) (or i (or j a b) c)
  /-- A branch is added. -/
  | add {i : Info} {a new : Ty} (hi : i.isNamed = false) : Revises a (or i a new)
  /-- A branch on the left is revised. -/
  | left {i : Info} {a a' b : Ty} (hi : i.isNamed = false) (h : Revises a a') :
    Revises (or i a b) (or i a' b)
  /-- A branch on the right is revised. -/
  | right {i : Info} {a b b' : Ty} (hi : i.isNamed = false) (h : Revises b b') :
    Revises (or i a b) (or i a b')
  /-- Annotations inside a leaf are renamed. -/
  | rename {a b : Ty} (ha : a.isInnerOr = false) (h : a.node.bare = b.node.bare)
    (hname : b.info.givenName? = a.info.givenName?) : Revises a b
  /-- A leaf is written in another way that fits, under the same name. -/
  | rewrite {a b : Ty} (ha : a.isInnerOr = false) (h : a.fits b = true)
    (hname : b.info.givenName? = a.info.givenName?) : Revises a b

/-- Whether a type is an inner choice is told by its primitive and its name. -/
theorem isInnerOr_congr {a b : Ty} (hprim : a.prim = b.prim)
    (hname : b.info.givenName? = a.info.givenName?) : a.isInnerOr = b.isInnerOr := by
  have hinner (ty : Ty) : ty.isInnerOr = (ty.prim == .or && !ty.info.givenName?.isSome) := by
    cases ty
    case saplingTransaction i deprecated memo => cases deprecated <;> rfl
    all_goals rfl
  rw [hinner, hinner, hprim, hname]

/-- A leaf that fits and keeps its name keeps what can be asked for. -/
theorem keeps_of_fits {a b : Ty} (ha : a.isInnerOr = false) (h : a.fits b = true)
    (hname : b.info.givenName? = a.info.givenName?) : Keeps a.branchLeaves b.branchLeaves := by
  have hb : b.isInnerOr = false := isInnerOr_congr (prim_eq_of_fits h) hname ▸ ha
  rw [branchLeaves_of_not_isInnerOr ha, branchLeaves_of_not_isInnerOr hb]
  exact .singleton h hname

/-- Types that are written alike have the same leaves, up to numbers. -/
theorem keeps_of_node {a b : Ty} (h : a.node = b.node) : Keeps a.branchLeaves b.branchLeaves := by
  -- The same node means the same primitive and the same name, whatever the ids are.
  have hwritten {a b : Ty} (h : a.node = b.node) :
      a.prim = b.prim ∧ b.info.givenName? = a.info.givenName? := by
    rw [node_eq, node_eq] at h
    obtain ⟨hname, -, hannots⟩ := Node.prim.inj h
    exact ⟨Prim.name_inj.1 hname, by simp only [Info.givenName?, hannots]⟩
  obtain ⟨hprim, hname⟩ := hwritten h
  by_cases hinner : a.isInnerOr = true
  · obtain ⟨i, left, right, rfl⟩ : ∃ i left right, a = or i left right := by
      cases a <;> first | cases hinner | exact ⟨_, _, _, rfl⟩
    obtain ⟨j, left', right', rfl⟩ := exists_of_prim hprim.symm
    have hi : i.isNamed = false := by simpa [isInnerOr] using hinner
    have hj : j.isNamed = false := by
      rw [← hi]
      exact congrArg Option.isSome hname
    rw [branchLeaves_or hi, branchLeaves_or hj]
    obtain ⟨-, hargs, -⟩ := Node.prim.inj h
    obtain ⟨hleft, hright, -⟩ : left.node = left'.node ∧ right.node = right'.node ∧ True := by
      simpa using hargs
    exact (keeps_of_node hleft).append (keeps_of_node hright)
  -- Not a nameless choice, so a single leaf on both sides.
  · have hfits := fits_of_bare_node_eq (congrArg Node.bare h)
    exact keeps_of_fits (eq_false_of_ne_true hinner) hfits hname

/-- **A revision keeps the leaves of a branch.** -/
theorem Revises.keeps {a b : Ty} (h : Revises a b) : Keeps a.branchLeaves b.branchLeaves := by
  induction h with
  | renumber h => exact keeps_of_node h
  | swap hi hj =>
    rw [branchLeaves_or hi, branchLeaves_or hj]
    exact .of_subset (List.perm_append_comm.subset)
  | regroup hi hj | ungroup hi hj =>
    rw [branchLeaves_or hi, branchLeaves_or hj, branchLeaves_or hi, branchLeaves_or hj,
      List.append_assoc]
    exact .of_subset (List.Subset.refl _)
  | add hi =>
    rw [branchLeaves_or hi]
    exact .of_subset (List.subset_append_left _ _)
  | left hi _ ih =>
    rw [branchLeaves_or hi, branchLeaves_or hi]
    exact ih.append (.of_subset (List.Subset.refl _))
  | right hi _ ih =>
    rw [branchLeaves_or hi, branchLeaves_or hi]
    exact .append (.of_subset (List.Subset.refl _)) ih
  | rename ha h hname => exact keeps_of_fits ha (fits_of_bare_node_eq h) hname
  | rewrite ha h hname => exact keeps_of_fits ha h hname

/-- **Any number of revisions does.** -/
theorem keeps_of_revised {a b : Ty} (h : Relation.ReflTransGen Revises a b) :
    Keeps a.branchLeaves b.branchLeaves := by
  induction h with
  | refl => exact .of_subset (List.Subset.refl _)
  | tail _ hstep ih => exact ih.trans hstep.keeps

/-! ### Whole parameters -/

/-- A choice without its own annotations.  Where a choice is the whole parameter, its name does
not make it a leaf. -/
def withoutName : Ty → Ty
  | .or i left right => .or { i with annots := [] } left right
  | ty => ty

theorem branchLeaves_withoutName {p : Ty} (h : p.prim = .or) :
    p.withoutName.branchLeaves = p.leaves.map (·.2) := by
  obtain ⟨i, left, right, rfl⟩ := exists_of_prim h
  rw [withoutName, branchLeaves_or rfl, map_snd_leaves_or]

end Micheline.Ty
