/-
Micheline/Proofs/Ty/Definitions.lean

The documentation of a type is a definition of the type and then, in the order in which they are
written, one of each pair and choice in it that is not part of the one around it
(`Ty.structures`).  Whatever a definition refers to is defined behind it (`Ty.docs_closed`).

Describing a type adds the definitions of the pairs and choices that the description leads to
behind those that are there (`Ty.adds_describe`): the place of a definition is taken before its
parts are described, so that it stands before theirs.  The pairs and choices in a type follow it
at once (`Ty.isNested_structures`), and a description refers to nothing but these.
-/
import Micheline.Proofs.Except
import Micheline.Proofs.Ty.References
import Micheline.Proofs.Ty.Revised

namespace Micheline

/-- The texts of a definition: its description, and those of its parts. -/
def Typedef.texts (d : Typedef) : List String :=
  d.description :: d.parts.map (·.2)

namespace Ty

variable {i : Info} {l r ty around : Ty}

/-! ### The pairs and choices in a type -/

/-- The types in a type, each behind the type it stands in, in the order in which they are
written. -/
def steps (ty : Ty) : List (Ty × Ty) :=
  match ty with
  | .contract _ param => (ty, param) :: param.steps
  | .pair _ left right => (ty, left) :: left.steps ++ (ty, right) :: right.steps
  | .or _ left right => (ty, left) :: left.steps ++ (ty, right) :: right.steps
  | .option _ inner => (ty, inner) :: inner.steps
  | .list _ elem => (ty, elem) :: elem.steps
  | .set _ elem => (ty, elem) :: elem.steps
  | .map _ key value => (ty, key) :: key.steps ++ (ty, value) :: value.steps
  | .bigMap _ key value => (ty, key) :: key.steps ++ (ty, value) :: value.steps
  | .lambda _ param result => (ty, param) :: param.steps ++ (ty, result) :: result.steps
  | .ticket _ content _ => (ty, content) :: content.steps
  | _ => []

/-- Whether a type is a pair or a choice. -/
def isStructure : Ty → Bool
  | .pair _ _ _ => true
  | .or _ _ _ => true
  | _ => false

/-- Whether a type is defined by itself where it stands: pairs and choices are, but for unnamed
pairs in a pair and unnamed choices in a choice. -/
def isDefined : (around ty : Ty) → Bool
  | .pair _ _ _, .pair info _ _ => info.isNamed
  | .or _ _ _, .or info _ _ => info.isNamed
  | _, ty => ty.isStructure

/-- The pairs and choices in a type that are defined by themselves. -/
def structures (ty : Ty) : List Ty :=
  (ty.steps.filter fun step => isDefined step.1 step.2).map (·.2)

/-- What a type adds to those pairs and choices where it stands. -/
def placed (around ty : Ty) : List Ty :=
  (if isDefined around ty then [ty] else []) ++ ty.structures

/-- What a type adds where it stands by itself. -/
def introduced (ty : Ty) : List Ty :=
  (if ty.isStructure then [ty] else []) ++ ty.structures

theorem steps_eq (ty : Ty) : ty.steps = ty.children.flatMap fun c => (ty, c) :: c.steps := by
  cases ty <;> simp [steps, children]

/-- The structures inside are those placed under each child. -/
theorem structures_eq (ty : Ty) : ty.structures = ty.children.flatMap (placed ty) := by
  rw [structures, steps_eq, List.filter_flatMap, List.map_flatMap]
  congr 1
  funext c
  rw [placed, List.filter_cons]
  split <;> rfl

/-- Outside of pairs and choices a type introduces itself. -/
theorem placed_eq_introduced (h : around.isStructure = false) (ty : Ty) :
    placed around ty = ty.introduced := by
  have hdefined : isDefined around ty = ty.isStructure := by
    cases around <;> first | rfl | cases h
  rw [placed, hdefined, introduced]

/-- Any type that is no pair and no choice introduces what the types do that it is written
with. -/
theorem introduced_eq (h : ty.isStructure = false) :
    ty.introduced = ty.children.flatMap introduced := by
  rw [introduced, h, structures_eq, funext (placed_eq_introduced h)]
  rfl

/-! ### Members and leaves -/

theorem isDefined_pair (i : Info) (l r ty : Ty) :
    isDefined (pair i l r) ty = (!ty.isInnerPair && ty.isStructure) := by
  cases ty with
  | pair => simp [isDefined, isInnerPair, isStructure]
  | _ => rfl

theorem isDefined_or (i : Info) (l r ty : Ty) :
    isDefined (or i l r) ty = (!ty.isInnerOr && ty.isStructure) := by
  cases ty with
  | or => simp [isDefined, isInnerOr, isStructure]
  | _ => rfl

/-- A part is there with what it introduces, unless it counts as part of the type around it; then
there is what its own parts introduce. -/
theorem flatMap_spliced {inner : Bool} {parts : List Ty}
    (hty : isDefined around ty = (!inner && ty.isStructure))
    (hparts : inner = true → parts.flatMap introduced = ty.structures) :
    (if inner then parts else [ty]).flatMap introduced = placed around ty := by
  rw [placed, hty]
  cases inner with
  | true => exact hparts rfl
  | false => exact List.flatMap_singleton ..

/-- **The structures of a pair are those that its members introduce.** -/
theorem flatMap_members (h : ty.prim = .pair) : ty.members.flatMap introduced = ty.structures := by
  have hprim {t : Ty} (hinner : t.isInnerPair = true) : t.prim = .pair := by
    cases t <;> first | rfl | cases hinner
  induction ty with
  | pair i l r ihl ihr =>
    rw [members, List.flatMap_append,
      flatMap_spliced (isDefined_pair i l r l) fun hl => ihl (hprim hl),
      flatMap_spliced (isDefined_pair i l r r) fun hr => ihr (hprim hr),
      structures_eq, children, List.flatMap_cons, List.flatMap_singleton]
  | saplingTransaction i deprecated => cases deprecated <;> cases h
  | _ => cases h

/-- **The structures of a choice are those that its leaves introduce.** -/
theorem flatMap_leaves (h : ty.prim = .or) :
    (ty.leaves.map (·.2)).flatMap introduced = ty.structures := by
  have hprim {t : Ty} (hinner : t.isInnerOr = true) : t.prim = .or := by
    cases t <;> first | rfl | cases hinner
  induction ty with
  | or i l r ihl ihr =>
    rw [map_snd_leaves_or, List.flatMap_append, branchLeaves, branchLeaves,
      flatMap_spliced (isDefined_or i l r l) fun hl => ihl (hprim hl),
      flatMap_spliced (isDefined_or i l r r) fun hr => ihr (hprim hr),
      structures_eq, children, List.flatMap_cons, List.flatMap_singleton]
  | saplingTransaction i deprecated => cases deprecated <;> cases h
  | _ => cases h

/-! ### Definitions -/

/-- What the definition of a pair or a choice says of a part: its name and its description. -/
def summary (ty : Ty) : String × String :=
  (ty.name, ty.description)

/-- The definition of a type: of a pair its members, of a choice its leaves, else its
description. -/
def definition (ty : Ty) : Typedef :=
  match ty with
  | .pair _ _ _ => ⟨ty.name, "object", ty.members.map summary⟩
  | .or _ _ _ => ⟨ty.name, "or", (ty.leaves.map (·.2)).map summary⟩
  | _ => ⟨ty.name, ty.description, []⟩

theorem name_definition (ty : Ty) : ty.definition.name = ty.name := by
  cases ty <;> rfl

/-- What is no structure is defined by its description alone. -/
theorem definition_of_not_isStructure (h : ty.isStructure = false) :
    ty.definition = ⟨ty.name, ty.description, []⟩ := by
  cases ty with
  | pair | or => cases h
  | _ => rfl

/-- Writing returns a value and adds definitions behind those that are there, whatever these
are. -/
def Adds {α : Type} (x : Writer α) (a : α) (ds : List Typedef) : Prop :=
  ∀ written, x.run written = pure (a, written ++ ds)

namespace Adds

variable {α β : Type} {x : Writer α} {f : α → Writer β} {a : α} {b : β} {ds ds' : List Typedef}

theorem pure (a : α) : Adds (Pure.pure a) a [] := by
  intro written
  rw [List.append_nil]
  rfl

theorem bind (hx : Adds x a ds) (hf : Adds (f a) b ds') : Adds (x >>= f) b (ds ++ ds') := by
  intro written
  rw [StateT.run_bind, hx, pure_bind, hf, List.append_assoc]

theorem map {g : α → β} (hx : Adds x a ds) : Adds (do return g (← x)) (g a) ds := by
  have hmap := hx.bind (f := fun a => Pure.pure (g a)) (pure (g a))
  rwa [List.append_nil] at hmap

theorem map₂ {γ : Type} {y : Writer β} {g : α → β → γ} (hx : Adds x a ds) (hy : Adds y b ds') :
    Adds (do return g (← x) (← y)) (g a b) (ds ++ ds') :=
  hx.bind (f := fun a => do return g a (← y)) hy.map

/-- A run writes what its steps write, one after another. -/
theorem mapM {γ : Type} {f : γ → Writer β} {g : γ → β} {e : γ → List Typedef} {xs : List γ}
    (h : ∀ c ∈ xs, Adds (f c) (g c) (e c)) : Adds (xs.mapM f) (xs.map g) (xs.flatMap e) := by
  induction xs with
  | nil => exact pure []
  | cons c xs ih =>
    obtain ⟨hc, hxs⟩ := List.forall_mem_cons.1 h
    rw [List.mapM_cons]
    exact hc.bind ((ih hxs).map (g := (g c :: ·)))

/-- **A definition stands before those that its parts add**, and is filled in where it
stands. -/
theorem define {name description : String} {parts : Writer (List (String × String))}
    {summaries : List (String × String)} (h : Adds parts summaries ds) :
    Adds (define name description parts) ("$" ++ name) (⟨name, description, summaries⟩ :: ds) := by
  intro written
  have hparts := h (written ++ [⟨name, description, []⟩])
  have hplace (d : Typedef) (f : Typedef → Typedef) :
      (written ++ d :: ds).modify written.length f = written ++ f d :: ds :=
    List.modifyTailIdx_add (List.modifyHead f) 0 written (d :: ds)
  rw [List.append_assoc, List.singleton_append] at hparts
  simp only [Ty.define, bind_pure_comp, StateT.run_bind, StateT.run_get, StateT.run_modify,
    StateT.run_map, map_pure, pure_bind, hparts, hplace]

end Adds

/-! ### What describing adds -/

/-- Parts are described one after another. -/
theorem Adds.summaries {α : Type} (xs : List α) (f : α → Ty)
    (h : ∀ x ∈ xs, Adds (f x).describe (f x).description ((f x).introduced.map definition)) :
    Adds (xs.attach.mapM fun x => return ((f x.1).name, ← (f x.1).describe))
      ((xs.map f).map summary) (((xs.map f).flatMap introduced).map definition) := by
  have hparts : Adds (xs.mapM fun x => return ((f x).name, ← (f x).describe))
      (xs.map (summary ∘ f)) (xs.flatMap fun x => (f x).introduced.map definition) :=
    mapM fun x hx => (h x hx).map
  rw [List.map_map, List.map_flatMap, List.flatMap_map]
  rwa [← mapM_attach] at hparts

/-- **Describing a type adds the definitions of what it introduces** and returns its
description. -/
theorem adds_describe (ty : Ty) :
    Adds ty.describe ty.description (ty.introduced.map definition) := by
  have hchild {c : Ty} (hc : c ∈ ty.children) :
      Adds c.describe c.description (c.introduced.map definition) := by
    have := size_lt_of_mem_children hc
    exact adds_describe c
  -- members and leaves may stand deep in the type, so the recursion is on its size
  cases ty with
  | pair i l r =>
    have hmembers := Adds.summaries (pair i l r).members id fun m hm => by
      have := size_lt_of_mem_members hm
      exact adds_describe m
    rw [List.map_id, flatMap_members rfl] at hmembers
    rw [describe]
    exact hmembers.define
  | or i l r =>
    have hleaves := Adds.summaries (or i l r).leaves (·.2) fun leaf hleaf => by
      have := size_lt_of_mem_leaves hleaf
      exact adds_describe leaf.2
    rw [flatMap_leaves rfl] at hleaves
    rw [describe]
    exact hleaves.define
  | contract i c | option i c | list i c | set i c | ticket i c =>
    rw [describe, introduced_eq rfl, children, List.flatMap_singleton]
    exact (hchild (List.mem_singleton_self _)).map
  | map i a b | bigMap i a b | lambda i a b =>
    rw [describe, introduced_eq rfl, children, List.flatMap_cons, List.flatMap_singleton,
      List.map_append]
    exact (hchild List.mem_cons_self).map₂ (hchild (List.mem_cons_of_mem _ List.mem_cons_self))
  | _ =>
    rw [describe.eq_def, introduced_eq rfl]
    exact .pure _
termination_by ty.size

/-- Only the description of a pair or a choice is nothing but a reference. -/
theorem description_ne (h : ty.isStructure = false) (name : String) :
    ty.description ≠ "$" ++ name := by
  intro heq
  have hdollar : ty.description.toList.head? = some '$' := by
    rw [heq, String.toList_append]
    rfl
  -- the name of a primitive has no dollar sign in it
  have hname : ty.description ≠ ty.prim.name := by
    intro hname
    rw [hname] at hdollar
    exact absurd (List.all_eq_true.1 ty.prim.isNameChar_name '$' (List.mem_of_head? hdollar))
      (by decide)
  cases ty with
  | pair | or => cases h
  | unit | never | operation | bool | scalar => exact hname rfl
  | saplingTransaction i deprecated memo =>
    cases deprecated <;> simp [description, prim, Prim.name] at hdollar
  | _ => simp [description] at hdollar

/-- **The documentation of a type is its definition and those of its structures.** -/
theorem docs_eq (ty : Ty) : ty.docs = ty.definition :: ty.structures.map definition := by
  have hrun := adds_describe ty []
  rw [docs, hrun]
  show (if ty.description = "$" ++ ty.name then ty.introduced.map definition
    else ⟨ty.name, ty.description, []⟩ :: ty.introduced.map definition) = _
  -- What introduces a pair or a choice is written with the names of its members or leaves; any
  -- other type is described by one text.
  cases hty : ty.isStructure with
  | true =>
    have hname : ty.description = "$" ++ ty.name := by
      cases ty <;> first | rfl | cases hty
    rw [if_pos hname, introduced, hty]
    rfl
  | false =>
    rw [if_neg (description_ne hty ty.name), introduced, hty, definition_of_not_isStructure hty]
    rfl

/-! ### What stands behind a definition -/

/-- Behind each type of a list stand the pairs and choices in it. -/
def IsNested (tys : List Ty) : Prop :=
  ∀ t later, t :: later <:+ tys → t.structures <+: later

namespace IsNested

variable {tys tys' : List Ty}

theorem nil : IsNested [] := by
  intro t later h
  cases List.suffix_nil.1 h

theorem cons (h : IsNested ty.structures) : IsNested (ty :: ty.structures) := by
  intro t later hsuffix
  rcases List.suffix_cons_iff.1 hsuffix with heq | hsuffix
  · obtain ⟨rfl, rfl⟩ := List.cons.inj heq
    exact List.prefix_rfl
  · exact h t later hsuffix

/-- Nested lists are nested one after another. -/
theorem append (h : IsNested tys) (h' : IsNested tys') : IsNested (tys ++ tys') := by
  rintro t later ⟨before, heq⟩
  obtain ⟨tail, rfl, htail⟩ | ⟨mid, -, hmid⟩ := List.append_eq_append_iff.1 heq
  · -- the type stands in the first list, or begins the second one
    cases tail with
    | nil => exact h' t later ⟨[], htail⟩
    | cons t' tail =>
      obtain ⟨rfl, rfl⟩ := List.cons.inj htail
      exact (h t tail ⟨before, rfl⟩).trans (List.prefix_append tail tys')
  · exact h' t later ⟨mid, hmid.symm⟩

theorem flatMap {f : Ty → List Ty} (h : ∀ t ∈ tys, IsNested (f t)) : IsNested (tys.flatMap f) := by
  induction tys with
  | nil => exact nil
  | cons t tys ih =>
    obtain ⟨ht, htys⟩ := List.forall_mem_cons.1 h
    exact ht.append (ih htys)

theorem placed (h : IsNested ty.structures) : IsNested (placed around ty) := by
  rw [Ty.placed]
  cases isDefined around ty with
  | true => exact h.cons
  | false => exact h

end IsNested

/-- **The pairs and choices in a type follow it at once**, wherever it stands in another one. -/
theorem isNested_structures (ty : Ty) : IsNested ty.structures := by
  rw [structures_eq]
  refine IsNested.flatMap fun c hc => IsNested.placed ?_
  have := size_lt_of_mem_children hc
  exact isNested_structures c
termination_by ty.size

/-! ### References -/

/-- The description of any type that is no pair and no choice goes on with those of the types it
is written with. -/
theorem referred_eq (h : ty.isStructure = false) : ty.referred = ty.children.flatMap referred := by
  cases ty with
  | pair | or => cases h
  | _ => simp [referred, children]

/-- **A description refers to nothing but what the type introduces.** -/
theorem referred_subset (ty : Ty) : ty.referred ⊆ ty.introduced := by
  cases hty : ty.isStructure with
  | true =>
    have hself : ty.referred = [ty] := by
      cases ty <;> first | rfl | cases hty
    rw [hself, introduced, hty]
    exact List.subset_append_left [ty] ty.structures
  | false =>
    rw [referred_eq hty, introduced_eq hty]
    intro t ht
    obtain ⟨c, hc, ht⟩ := List.mem_flatMap.1 ht
    have := size_lt_of_mem_children hc
    exact List.mem_flatMap.2 ⟨c, hc, referred_subset c ht⟩
termination_by ty.size

/-- What the descriptions of parts refer to, the parts introduce. -/
theorem exists_introduced_of_references {tys : List Ty} {text name : String}
    (htext : text ∈ (tys.map summary).map (·.2)) (hname : name ∈ references text) :
    ∃ t ∈ tys.flatMap introduced, t.name = name := by
  rw [List.map_map] at htext
  obtain ⟨m, hm, rfl⟩ := List.mem_map.1 htext
  rw [Function.comp_apply, summary, references_description] at hname
  obtain ⟨t, ht, rfl⟩ := List.mem_map.1 hname
  exact ⟨t, List.mem_flatMap.2 ⟨m, hm, m.referred_subset ht⟩, rfl⟩

/-- **A definition refers to nothing but the pairs and choices in its type**, by their names. -/
theorem exists_structure_of_references {text name : String} (htext : text ∈ ty.definition.texts)
    (hname : name ∈ references text) : ∃ t ∈ ty.structures, t.name = name := by
  cases hty : ty.isStructure with
  | true =>
    cases ty with
    | pair i l r =>
      have hkind : references "object" = [] :=
        (refers_of_isNameChar (all_toList_ofList rfl)).references_eq
      rcases List.mem_cons.1 htext with rfl | htext
      · cases hkind ▸ hname
      · rw [← flatMap_members rfl]
        exact exists_introduced_of_references htext hname
    | or i l r =>
      have hkind : references "or" = [] :=
        (refers_of_isNameChar (all_toList_ofList rfl)).references_eq
      rcases List.mem_cons.1 htext with rfl | htext
      · cases hkind ▸ hname
      · rw [← flatMap_leaves rfl]
        exact exists_introduced_of_references htext hname
    | _ => cases hty
  -- An entry that is no structure has one text, its own description.
  | false =>
    have hdefinition := definition_of_not_isStructure hty
    rw [hdefinition] at htext
    obtain rfl := List.mem_singleton.1 htext
    rw [references_description] at hname
    obtain ⟨t, ht, rfl⟩ := List.mem_map.1 hname
    have hintroduced := ty.referred_subset ht
    rw [introduced, hty] at hintroduced
    exact ⟨t, hintroduced, rfl⟩

/-- **Documentation is in order and closed.**  It is the definition of the type, under its name,
and then, in the order in which they are written, those of the pairs and choices in it that are
not part of the one around them; each names the members of its pair or the leaves of its choice.
Whatever a text of a definition refers to is the name of a definition behind it. -/
theorem docs_closed (ty : Ty) :
    ty.docs = ty.definition :: ty.structures.map definition
      ∧ (∀ t : Ty, t.definition.name = t.name)
      ∧ ∀ (d : Typedef) (later : List Typedef), d :: later <:+ ty.docs →
        ∀ text ∈ d.texts, ∀ name ∈ references text, name ∈ later.map (·.name) := by
  refine ⟨docs_eq ty, name_definition, fun d later hsuffix text htext name hname => ?_⟩
  rw [docs_eq, ← List.map_cons, List.suffix_map_iff] at hsuffix
  obtain ⟨tys, htys, heq⟩ := hsuffix
  obtain ⟨t, tys, rfl, rfl, rfl⟩ := List.map_eq_cons_iff.1 heq.symm
  obtain ⟨s, hs, rfl⟩ := exists_structure_of_references htext hname
  have hlater := ((isNested_structures ty).cons t tys htys).subset hs
  rw [List.map_map, ← name_definition s]
  exact List.mem_map_of_mem hlater

/-- A record in a map: its definition follows that of the map, and what the last member refers to
is defined behind both.  The hash of a constant refers to nothing. -/
theorem docs_closed_record :
    let choice := Ty.or ⟨7, 4, [":choice"]⟩ (.unit ⟨8, 5, ["%left"]⟩) (.bool ⟨9, 5, ["%right"]⟩)
    let record := Ty.pair ⟨2, 1, []⟩ (.scalar ⟨3, 2, ["%amount"]⟩ .nat)
      (.pair ⟨4, 2, []⟩ (.constant ⟨5, 3, ["%code"]⟩ "$nat") (.option ⟨6, 3, ["%next"]⟩ choice))
    let ty := Ty.map ⟨0, 0, []⟩ (.scalar ⟨1, 1, []⟩ .nat) record
    ty.docs = [⟨"@map_0", "map(nat, $@pair_2)", []⟩,
        ⟨"@pair_2", "object",
          [("amount", "nat"), ("code", "constant(\"$nat\")"), ("next", "option($choice)")]⟩,
        ⟨"choice", "or", [("left", "unit"), ("right", "bool")]⟩]
      ∧ record.definition :: [choice.definition] <:+ ty.docs
      ∧ references "option($choice)" = ["choice"]
      ∧ "choice" ∈ [choice.definition].map (·.name) := by
  intro choice record ty
  obtain ⟨hdocs, -, hclosed⟩ := docs_closed ty
  have hsuffix : record.definition :: [choice.definition] <:+ ty.docs := by
    rw [hdocs]
    exact ⟨[ty.definition], rfl⟩
  have href : references "option($choice)" = ["choice"] := by decide +kernel
  refine ⟨?_, hsuffix, href, ?_⟩
  · rw [hdocs]
    decide +kernel
  · exact hclosed _ _ hsuffix "option($choice)" (by decide +kernel) "choice" (by rw [href]; simp)

end Ty

end Micheline
