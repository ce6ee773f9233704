/-
Micheline/Proofs/Contract/Interface.lean

Finding interfaces.  A requirement asks for entrypoints one by one, and any entrypoint of the
right name and type will do.  So a parameter has all interfaces of another one whose leaves have
counterparts in it (`Requirement.isMetBy_mono`): for a leaf with a name one of the same name, for
any other leaf one that fits.

That a leaf without a name is called otherwise in the other parameter does no harm, because no
standard interface asks for a name that is made of a number (`not_isAuto_of_standard`).  The
types of the standard interfaces are known because each is read back from its document
(`requirements_standard`).
-/
import Mathlib.Data.List.Nodup
import Micheline.Contract.Registry
import Micheline.Proofs.Node.Text
import Micheline.Proofs.Ty.Revised

namespace Micheline

/-! ### Names -/

/-- Whether a name looks like one that is made of a primitive and a number. -/
def isAuto (name : String) : Prop :=
  name.toList.head? = some '@'

instance (name : String) : Decidable (isAuto name) :=
  inferInstanceAs (Decidable (_ = _))

namespace Ty

theorem isAuto_name {ty : Ty} (h : ty.isNamed = false) : isAuto ty.name := by
  have hname : ty.info.givenName? = none :=
    Option.isNone_iff_eq_none.1 (Option.isSome_eq_false_iff.1 h)
  rw [name, hname, isAuto]
  simp [String.toList_append]

theorem name_congr {a b : Ty} (h : a.isNamed = true)
    (hname : b.info.givenName? = a.info.givenName?) : b.name = a.name := by
  obtain ⟨given, hgiven⟩ := Option.isSome_iff_exists.1 h
  rw [name, name, hname, hgiven]
  rfl

theorem prim_of_isOr {ty : Ty} (h : ty.isOr = true) : ty.prim = .or := by
  cases ty <;> first | rfl | cases h

end Ty

/-! ### Requirements -/

section Requirement

variable {r : Requirement} {xs ys : List (String × Ty)}

/-- Each entrypoint that is asked for is there, under its name and with a type that fits. -/
theorem Requirement.isMetBy_iff : r.isMetBy xs = true ↔ ∀ e ∈ r.entrypoints, ∃ x ∈ xs,
    (e.1 = "" ∨ e.1 = x.1) ∧ x.2.fits e.2 = true := by
  simp [isMetBy, List.all_eq_true, List.any_eq_true]

/-- **Entrypoints with counterparts among others are all the same for a requirement**, if the
names that it asks for are kept. -/
theorem Requirement.isMetBy_mono
    (hxs : ∀ x ∈ xs, ∃ y ∈ ys, x.2.fits y.2 = true ∧ (x.1 ∈ r.entrypoints.map (·.1) → y.1 = x.1))
    (h : r.isMetBy xs = true) : r.isMetBy ys = true := by
  rw [isMetBy_iff] at h ⊢
  intro e he
  obtain ⟨x, hx, hname, hfits⟩ := h e he
  obtain ⟨y, hy, hxy, hsame⟩ := hxs x hx
  refine ⟨y, hy, hname.imp_right fun heq => ?_, Ty.fits_trans (Ty.fits_symm hxy) hfits⟩
  rw [heq]
  exact (hsame (heq ▸ List.mem_map_of_mem he)).symm

end Requirement

namespace Registry

variable {r : Registry} {rs : List Requirement}

/-! ### Tags -/

/-- Placing an interface keeps the order of tags: a known tag is replaced where it stands, and a
new one comes last. -/
theorem map_tag_place (new : Interface) (known : List Interface) :
    (register.place new known).map (·.tag)
      = if new.tag ∈ known.map (·.tag) then known.map (·.tag)
        else known.map (·.tag) ++ [new.tag] := by
  induction known with
  | nil => rfl
  | cons i known ih =>
    rw [register.place]
    split
    next heq => simp [heq]
    next hne => simp only [List.map_cons, ih, List.mem_cons, Ne.symm hne, false_or]; split <;> rfl

/-- **A registration keeps tags distinct.** -/
theorem nodup_tags_register (h : r.tags.Nodup) (new : Interface) : (r.register new).tags.Nodup := by
  rw [tags, register, map_tag_place]
  split
  next => exact h
  next hnew => exact List.nodup_append.2 ⟨h, List.nodup_singleton _, by simp_all⟩

/-- So do any number of registrations. -/
theorem nodup_tags_foldl (h : r.tags.Nodup) (is : List Interface) :
    (is.foldl register r).tags.Nodup := by
  induction is generalizing r with
  | nil => exact h
  | cons i is ih => exact ih (nodup_tags_register h i)

theorem map_tag_requirements (h : r.requirements = .ok rs) : rs.map (·.tag) = r.tags := by
  have hread : List.Forall₂ (fun i q => Requirement.tag q = Interface.tag i) r.interfaces rs := by
    refine forall₂_of_mapM h fun i _ q hq => ?_
    obtain ⟨entrypoints, -, hq⟩ := bind_eq_ok_iff.1 hq
    obtain rfl := pure_eq_ok_iff.1 hq
    rfl
  rw [tags, ← List.forall₂_eq_eq_eq, List.forall₂_map_left_iff, List.forall₂_map_right_iff]
  exact hread.flip

/-! ### Searching -/

/-- Searching keeps the tags of the requirements that are met, in their order. -/
theorem find_eq (h : r.requirements = .ok rs) (P : Tree) :
    r.find P = .ok ((rs.filter (·.isMetBy P.entrypoints)).map (·.tag)) := by
  rw [find, h]
  rfl

/-- **A tag is found if the parameter has its interface**, and otherwise not. -/
theorem implements_eq (htags : r.tags.Nodup) {P : Tree} {found : List String}
    (h : r.find P = .ok found) (tag : String) :
    r.implements P tag = .ok (decide (tag ∈ found)) := by
  obtain ⟨rs, hrs, -⟩ := bind_eq_ok_iff.1 h
  obtain rfl := Except.ok.inj ((find_eq hrs P).symm.trans h)
  rw [← map_tag_requirements hrs] at htags
  cases hq : rs.find? (·.tag == tag) with
  | some q =>
    -- tags are distinct, so that the first requirement of the tag is the only one
    have himplements : r.implements P tag = .ok (q.isMetBy P.entrypoints) :=
      bind_eq_ok_iff.2 ⟨rs, hrs, by rw [hq]; rfl⟩
    have htag := List.find?_some hq
    obtain rfl : q.tag = tag := eq_of_beq htag
    have hmem := List.mem_of_find?_eq_some hq
    rw [himplements]
    refine congrArg Except.ok (Bool.eq_iff_iff.2 ?_)
    rw [decide_eq_true_iff, List.mem_map]
    constructor
    · exact fun hmet => ⟨q, List.mem_filter.2 ⟨hmem, hmet⟩, rfl⟩
    · rintro ⟨q', hq', htag⟩
      obtain ⟨hmem', hmet⟩ := List.mem_filter.1 hq'
      exact List.inj_on_of_nodup_map htags hmem' hmem htag ▸ hmet
  | none =>
    have himplements : r.implements P tag = .ok false :=
      bind_eq_ok_iff.2 ⟨rs, hrs, by rw [hq]; rfl⟩
    rw [himplements]
    refine congrArg Except.ok (decide_eq_false fun hfound => ?_).symm
    obtain ⟨q, hmem, rfl⟩ := List.mem_map.1 hfound
    exact List.find?_eq_none.1 hq q (List.mem_filter.1 hmem).1 (beq_self_eq_true _)

/-! ### The standard interfaces -/

/-- An interface with a new tag is put behind the others. -/
theorem place_of_tag_notMem {new : Interface} {known : List Interface}
    (h : new.tag ∉ known.map (·.tag)) : register.place new known = known ++ [new] := by
  induction known with
  | nil => rfl
  | cons i known ih =>
    obtain ⟨hne, h⟩ := not_or.1 (List.mem_cons.not.1 h)
    rw [register.place, if_neg (Ne.symm hne), ih h, List.cons_append]

/-- Interfaces with tags of their own are registered one behind the other. -/
theorem interfaces_foldl {is : List Interface} (h : (r.tags ++ is.map (·.tag)).Nodup) :
    (is.foldl register r).interfaces = r.interfaces ++ is := by
  induction is generalizing r with
  | nil => exact (List.append_nil _).symm
  | cons i is ih =>
    have hnew : i.tag ∉ r.tags := fun hi =>
      List.disjoint_of_nodup_append h hi List.mem_cons_self
    have hplace : (r.register i).interfaces = r.interfaces ++ [i] := place_of_tag_notMem hnew
    have htags : ((r.register i).tags ++ is.map (·.tag)).Nodup := by
      rw [tags, hplace, List.map_append, List.append_assoc]
      exact h
    rw [List.foldl_cons, ih htags, hplace, List.append_assoc]
    rfl

theorem interfaces_standard : standard.interfaces = Standard.all :=
  interfaces_foldl (r := {}) (by decide)

theorem nodup_tags_standard : standard.tags.Nodup :=
  nodup_tags_foldl (r := {}) List.nodup_nil Standard.all

/-- A type is read back from its document. -/
theorem readType_document {n : Node} (hopened : Node.opened [n] = [n])
    (hnesting : (Node.document [n]).nesting ≤ Json.maxNesting) :
    Interface.readType (Node.document [n]).compact = Ty.ofNode n := by
  have hparse := Node.parse_text [n] (.inl rfl)
    (show Json.IsPassed "".toList from Json.isPassed_nil)
  rw [String.append_empty, if_pos hnesting, hopened] at hparse
  rw [Interface.readType, hparse]
  rfl

/-- What an interface asks for, with the types that expressions write. -/
def requirementOf (i : String × List (String × Node)) : Except Error Requirement := do
  let entrypoints ← i.2.mapM fun e => do return (e.1, ← Ty.ofNode e.2)
  return { tag := i.1, entrypoints }

/-- **The types of the standard interfaces are read back from their documents.** -/
theorem requirements_standard : standard.requirements = Standard.types.mapM requirementOf := by
  have hplain : ∀ i ∈ Standard.types, ∀ e ∈ i.2, Node.opened [e.2] = [e.2]
      ∧ (Node.document [e.2]).nesting ≤ Json.maxNesting := by decide +kernel
  rw [requirements, interfaces_standard, Standard.all]
  refine mapM_map_congr fun i hi => ?_
  have hread : (Standard.interface i.1 i.2).entrypoints.mapM (fun e => do
        return (e.1, ← Interface.readType e.2))
      = i.2.mapM fun e => do return (e.1, ← Ty.ofNode e.2) := by
    refine mapM_map_congr fun e he => ?_
    obtain ⟨hopened, hnesting⟩ := hplain i hi e he
    dsimp only
    rw [readType_document hopened hnesting]
  rw [requirementOf, ← hread]
  rfl

/-- The types of all standard interfaces are read. -/
theorem exists_requirements_standard : ∃ rs, standard.requirements = .ok rs := by
  have hread : (Standard.types.mapM requirementOf).isOk = true := by decide +kernel
  rw [requirements_standard]
  cases h : Standard.types.mapM requirementOf with
  | ok rs => exact ⟨rs, rfl⟩
  | error e =>
    rw [h] at hread
    cases hread

/-- No standard interface asks for a name that is made of a number. -/
theorem not_isAuto_of_standard (h : standard.requirements = .ok rs) {q : Requirement}
    (hq : q ∈ rs) {name : String} (hname : name ∈ q.entrypoints.map (·.1)) : ¬ isAuto name := by
  have hstandard : ∀ i ∈ standard.interfaces, ∀ e ∈ i.entrypoints, ¬ isAuto e.1 := by decide
  obtain ⟨i, hi, hread⟩ := exists_of_mem_mapM h q hq
  obtain ⟨entrypoints, hentrypoints, hq⟩ := bind_eq_ok_iff.1 hread
  obtain rfl := pure_eq_ok_iff.1 hq
  obtain ⟨e, he, rfl⟩ := List.mem_map.1 hname
  obtain ⟨source, hsource, he⟩ := exists_of_mem_mapM hentrypoints e he
  obtain ⟨ty, -, he⟩ := bind_eq_ok_iff.1 he
  obtain rfl := pure_eq_ok_iff.1 he
  exact hstandard i hi source hsource

/-- The entrypoints of a parameter that is a choice are its leaves under their names. -/
theorem entrypoints_of_isOr {P : Tree} {p : Ty} (hP : P.roots = [p]) (hp : p.isOr = true) :
    P.entrypoints = (p.leaves.map (·.2)).map fun leaf => (leaf.name, leaf) := by
  rw [Tree.entrypoints, hP]
  show p.entrypoints = _
  rw [Ty.entrypoints, if_pos hp, List.map_map]
  rfl

/-- A standard interface that a parameter has, another one has too, if its leaves have
counterparts there. -/
theorem isMetBy_of_standard (h : standard.requirements = .ok rs) {q : Requirement} (hq : q ∈ rs)
    {xs ys : List Ty}
    (hxs : ∀ x ∈ xs, ∃ y ∈ ys, x.fits y = true ∧ (x.isNamed = true → y.name = x.name))
    (hmet : q.isMetBy (xs.map fun x => (x.name, x)) = true) :
    q.isMetBy (ys.map fun y => (y.name, y)) = true := by
  refine Requirement.isMetBy_mono (fun e he => ?_) hmet
  obtain ⟨x, hx, rfl⟩ := List.mem_map.1 he
  obtain ⟨y, hy, hfits, hname⟩ := hxs x hx
  refine ⟨_, List.mem_map_of_mem hy, hfits, fun hasked => hname ?_⟩
  by_contra hnamed
  exact not_isAuto_of_standard h hq hasked (Ty.isAuto_name (eq_false_of_ne_true hnamed))

/-- **Interfaces are not lost.**  Of parameters that are choices, the second one has all standard
interfaces of the first one if each leaf of that has a counterpart: one that fits, and of the
same name if an annotation names the leaf.  So it does after any number of revisions.  What is
found is what an interface alone is asked about by its tag. -/
theorem find_standard_subset {P Q : Tree} {p q : Ty} (hP : P.roots = [p]) (hQ : Q.roots = [q])
    (hp : p.isOr = true) (hq : q.isOr = true) :
    ∃ found found', standard.find P = .ok found ∧ standard.find Q = .ok found'
      ∧ ((∀ l ∈ p.leaves.map (·.2), ∃ l' ∈ q.leaves.map (·.2),
          l.fits l' = true ∧ (l.isNamed = true → l'.name = l.name)) → found ⊆ found')
      ∧ (Relation.ReflTransGen Ty.Revises p.withoutName q.withoutName → found ⊆ found')
      ∧ ∀ tag, standard.implements P tag = .ok (decide (tag ∈ found)) := by
  obtain ⟨rs, hrs⟩ := exists_requirements_standard
  have hfind := find_eq hrs P
  have hsubset (hleaves : ∀ l ∈ p.leaves.map (·.2), ∃ l' ∈ q.leaves.map (·.2),
      l.fits l' = true ∧ (l.isNamed = true → l'.name = l.name)) :
      (rs.filter (·.isMetBy P.entrypoints)).map (·.tag)
        ⊆ (rs.filter (·.isMetBy Q.entrypoints)).map (·.tag) := by
    rw [entrypoints_of_isOr hP hp, entrypoints_of_isOr hQ hq]
    refine List.map_subset _ fun r hr => ?_
    obtain ⟨hr, hmet⟩ := List.mem_filter.1 hr
    exact List.mem_filter.2 ⟨hr, isMetBy_of_standard hrs hr hleaves hmet⟩
  refine ⟨_, _, hfind, find_eq hrs Q, hsubset, fun hrevised => hsubset fun l hl => ?_,
    implements_eq nodup_tags_standard hfind⟩
  -- A root's own name is no leaf's name, so the leaves are those of the nameless roots.
  have hkeeps := Ty.keeps_of_revised hrevised
  rw [Ty.branchLeaves_withoutName (Ty.prim_of_isOr hp),
    Ty.branchLeaves_withoutName (Ty.prim_of_isOr hq)] at hkeeps
  obtain ⟨l', hl', hfits, hname⟩ := hkeeps l hl
  exact ⟨l', hl', hfits, fun hnamed => Ty.name_congr hnamed (hname hnamed)⟩

/-- A view among other entrypoints, which are then exchanged and joined by another one; there are
no transfers. -/
theorem find_view_among_more :
    let view := Ty.pair ⟨1, 1, []⟩ (.unit ⟨2, 2, []⟩)
      (.contract ⟨3, 2, []⟩ (.scalar ⟨4, 3, []⟩ .nat))
    let P : Tree := { roots := [.or ⟨0, 0, []⟩ view (.never ⟨5, 1, ["%stop"]⟩)] }
    let Q : Tree := { roots := [.or ⟨0, 0, []⟩ (.never ⟨5, 1, ["%stop"]⟩)
      (.or ⟨6, 0, []⟩ view (.bool ⟨7, 1, []⟩))] }
    ∃ found found', standard.find P = .ok found ∧ standard.find Q = .ok found'
      ∧ "view_nat" ∈ found ∧ "view_nat" ∈ found' ∧ "fa1" ∉ found := by
  intro view P Q
  obtain ⟨found, found', hfound, hfound', -, hsubset, himplements⟩ :=
    find_standard_subset (P := P) (Q := Q) rfl rfl rfl rfl
  have hview : (standard.implements P "view_nat").toOption = some true := by
    rw [implements, requirements_standard]
    decide +kernel
  have htransfer : (standard.implements P "fa1").toOption = some false := by
    rw [implements, requirements_standard]
    decide +kernel
  rw [himplements] at hview htransfer
  have hmem : "view_nat" ∈ found := of_decide_eq_true (Option.some.inj hview)
  exact ⟨found, found', hfound, hfound', hmem,
    hsubset (.tail (.single (.swap rfl rfl)) (.right rfl (.add rfl))) hmem,
    of_decide_eq_false (Option.some.inj htransfer)⟩

end Registry

end Micheline
