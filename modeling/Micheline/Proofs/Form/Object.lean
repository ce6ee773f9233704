/-
Micheline/Proofs/Form/Object.lean

The schema of a tree.  It is that of the only root, if the values of that are objects, or else
that of an object around the roots (`Tree.schema_cases`).

Main result: what the objects of a schema require (`Tree.schema_objects`).
-/
import Micheline.Proofs.Form.Regular

namespace Micheline

namespace Ty

/-- The values of a type are objects exactly if a submission for it as the only root stands
for itself. -/
theorem isObject_of_schema {now : Int} {ty : Ty} {s : Schema} (h : ty.schema now = .ok s) :
    s.isObject = ty.submitsAlone := by
  cases ty with
  | pair i left right =>
    rw [schema_pair] at h
    obtain ⟨props, -, h⟩ := bind_eq_ok_iff.1 h
    obtain rfl := pure_eq_ok_iff.1 h
    rfl
  | or i left right =>
    rw [schema_or] at h
    obtain ⟨bs, -, h⟩ := bind_eq_ok_iff.1 h
    obtain rfl := pure_eq_ok_iff.1 h
    rfl
  | option i inner =>
    rw [schema_option] at h
    obtain ⟨props, -, h⟩ := bind_eq_ok_iff.1 h
    obtain rfl := pure_eq_ok_iff.1 h
    rfl
  | list | set =>
    rw [schema] at h
    obtain ⟨item, -, h⟩ := bind_eq_ok_iff.1 h
    obtain rfl := pure_eq_ok_iff.1 h
    rfl
  | map | bigMap =>
    rw [schema] at h
    obtain ⟨ks, -, h⟩ := bind_eq_ok_iff.1 h
    obtain ⟨vs, -, h⟩ := bind_eq_ok_iff.1 h
    obtain rfl := pure_eq_ok_iff.1 h
    rfl
  -- types without values, and tickets, have no schema
  | never | operation | ticket =>
    rw [schema] at h
    cases h
  | scalar i kind =>
    obtain ⟨s', hs'⟩ : ∃ s', (scalar i kind).IsDescribed now s' := isDescribed_scalar i kind
    obtain rfl := Except.ok.inj (h.symm.trans hs'.schema)
    exact hs'.alone
  | unit | bool | contract | lambda | saplingState | saplingTransaction | constant =>
    rw [schema] at h
    · obtain rfl := Except.ok.inj h
      rfl
    all_goals simp

end Ty

/-! ### Trees -/

namespace Tree

variable {t : Tree} {now : Int} {s : Schema}

/-- The schema is that of an object around the roots. -/
def IsWrapped (now : Int) (t : Tree) (s : Schema) : Prop :=
  ∃ (base : Schema) (props : List (String × Schema)), base.IsBare ∧ base.kind = some "object"
    ∧ base.constant = none ∧ base.prim ≠ some Prim.pair.name
    ∧ Ty.properties now t.roots = .ok props ∧ s = base.withProperties props

/-- The schema of a tree whose roots are no objects of their own is one object around them. -/
theorem isWrapped_of_wrappedSchema
    (halone : ∀ root, t.roots = [root] → root.submitsAlone = false)
    (h : t.wrappedSchema now = .ok s) : t.IsWrapped now s := by
  obtain ⟨props, hprops, h⟩ := bind_eq_ok_iff.1 h
  obtain rfl := pure_eq_ok_iff.1 h
  refine ⟨_, props, ?_, ?_, ?_, ?_, hprops, rfl⟩
  · split <;> exact ⟨rfl, rfl, rfl, rfl⟩
  · split <;> rfl
  · split <;> rfl
  · split
    next root hroot =>
      refine Ty.prim_name_ne ?_
      have hroot := halone root hroot
      cases root with
      | pair => cases hroot
      | _ => rfl
    next => simp

/-- A tree has the schema of its only root, if the values of that are objects, or else that of an
object around the roots. -/
theorem schema_cases (h : t.schema now = .ok s) :
    (∃ root, t.roots = [root] ∧ root.submitsAlone = true ∧ root.schema now = .ok s)
      ∨ ((∀ root, t.roots = [root] → root.submitsAlone = false) ∧ t.IsWrapped now s) := by
  rw [schema] at h
  split at h
  next root hroot =>
    obtain ⟨own, hown, h⟩ := bind_eq_ok_iff.1 h
    -- The schema is asked whether it is an object; the type says the same beforehand.
    have hobject := Ty.isObject_of_schema hown
    split at h
    next halone =>
      obtain rfl := pure_eq_ok_iff.1 h
      exact .inl ⟨root, hroot, hobject ▸ halone, hown⟩
    next halone =>
      have halone : ∀ root, t.roots = [root] → root.submitsAlone = false := by
        intro root' hroot'
        obtain rfl := List.head_eq_of_cons_eq (hroot.symm.trans hroot')
        exact hobject ▸ Bool.eq_false_iff.2 halone
      exact .inr ⟨halone, isWrapped_of_wrappedSchema halone h⟩
  next hne =>
    have halone : ∀ root, t.roots = [root] → root.submitsAlone = false :=
      fun root hroot => absurd hroot (hne root)
    exact .inr ⟨halone, isWrapped_of_wrappedSchema halone h⟩

/-- The names that stand side by side in the types differ, and so do those of the roots. -/
def NamesDiffer (t : Tree) : Prop :=
  (Ty.properNames t.roots).Nodup ∧ ∀ root ∈ t.roots, root.NamesDiffer

/-- **What the objects of a schema require.**  Every schema in the schema of a tree has as its
properties the names that it requires, in the order in which they stand first; so it has
exactly the required properties in their order if no name is required twice.  The schema of a
pair requires the names of its members that are not the unit, those of inner pairs spliced in,
and if no two of them are equal it has one property for each, with the schema of the member.
No schema requires a name twice exactly if the names that stand side by side differ. -/
theorem schema_objects (h : t.schema now = .ok s) :
    (∀ o : Schema, o.IsPart s → o.properties.map (·.1) = o.required.eraseDups
      ∧ (o.properties.map (·.1) = o.required ↔ o.required.Nodup)
      ∧ (o.prim = some Prim.pair.name → ∃ i left right, (Ty.pair i left right).schema now = .ok o
        ∧ o.required = Ty.properNames (Ty.pair i left right).members
        ∧ (o.required.Nodup →
          List.Forall₂ (fun m p => p.1 = m.name ∧ m.schema now = .ok p.2)
            ((Ty.pair i left right).members.filter (!·.isUnit)) o.properties)))
      ∧ ((∀ o : Schema, o.IsPart s → o.required.Nodup) ↔ t.NamesDiffer) := by
  -- a root that stands for itself is regular, and so is an object of regular roots
  have hregular : s.Throughout (Ty.IsSound now)
      ∧ (s.Throughout Schema.IsDistinct ↔ t.NamesDiffer) := by
    rw [NamesDiffer]
    rcases schema_cases h with
      ⟨root, hroot, -, hs⟩ | ⟨-, base, props, hbare, -, -, hprim, hprops, rfl⟩
    · have hreg := Ty.isRegular_of_schema hs
      have hnames : (Ty.properNames [root]).Nodup :=
        (List.filter_sublist.map Ty.name).nodup (List.nodup_singleton root.name)
      rw [hroot, List.forall_mem_singleton, and_iff_right hnames]
      exact ⟨hreg.sound, hreg.distinct⟩
    · obtain ⟨hsound, hdistinct⟩ := Ty.regular_of_properties hprops fun root _ s hs =>
        Ty.isRegular_of_schema hs
      refine ⟨Ty.throughout_isSound_withProperties hbare hprim hsound, ?_⟩
      rw [Schema.throughout_isDistinct_withProperties hbare, hdistinct,
        Ty.map_fst_of_properties hprops]
  obtain ⟨hsound, hdistinct⟩ := hregular
  refine ⟨fun o ho => ?_, hdistinct⟩
  obtain ⟨hnames, hpair⟩ := hsound o ho
  exact ⟨hnames.names, hnames.names_eq_iff, hpair⟩

/-- A number and an optional text, which stands in an inner pair beside the unit. -/
theorem schema_objects_memo :
    let amount : Ty := .scalar ⟨1, 1, ["%amount"]⟩ .nat
    let memo : Ty := .option ⟨3, 2, ["%memo"]⟩ (.scalar ⟨4, 3, []⟩ .string)
    let root : Ty := .pair ⟨0, 0, []⟩ amount (.pair ⟨2, 1, []⟩ memo (.unit ⟨5, 2, []⟩))
    ∃ s, schema 0 ⟨[root], none⟩ = .ok s ∧ s.required = ["amount", "memo"]
      ∧ s.properties.map (·.1) = ["amount", "memo"]
      ∧ ∀ o : Schema, o.IsPart s → o.required.Nodup := by
  intro amount memo root
  obtain ⟨s, hs⟩ := Ty.exists_isDescribed 0 (show root.HasForm by decide)
  have hschema : schema 0 ⟨[root], none⟩ = .ok s := by
    rw [schema]
    refine bind_eq_ok_iff.2 ⟨s, hs.schema, ?_⟩
    rw [hs.alone]
    rfl
  obtain ⟨hobjects, hdistinct⟩ := schema_objects hschema
  obtain ⟨-, hnames, -⟩ := hobjects s .self
  -- the unit is not entered, and the members of the inner pair are spliced in
  have hrequired : s.required = ["amount", "memo"] := by
    have hpair := hs.schema
    rw [Ty.schema_pair] at hpair
    obtain ⟨props, hprops, hpair⟩ := bind_eq_ok_iff.1 hpair
    obtain rfl := pure_eq_ok_iff.1 hpair
    rw [Schema.required_withProperties (Schema.isBare_ofTy _ _), Ty.map_fst_of_properties hprops]
    decide
  have hdiffer : root.NamesDiffer := by
    have hmemo : memo.NamesDiffer := by
      rw [Ty.NamesDiffer]
      exact ⟨by decide, by unfold Ty.NamesDiffer; trivial⟩
    rw [Ty.NamesDiffer]
    refine ⟨by decide, List.forall_mem_cons.2 ⟨?_, List.forall_mem_cons.2 ⟨hmemo,
      List.forall_mem_singleton.2 ?_⟩⟩⟩ <;> (unfold Ty.NamesDiffer; trivial)
  have hall := hdistinct.2 ⟨by decide, List.forall_mem_singleton.2 hdiffer⟩
  exact ⟨s, hschema, hrequired, (hnames.2 (hall s .self)).trans hrequired, hall⟩

/-- Two members of one name share a property, and the name is required twice. -/
theorem schema_objects_shared :
    let field (id : Nat) : Ty := .scalar ⟨id, 1, ["%a"]⟩ .nat
    let t : Tree := ⟨[.pair ⟨0, 0, []⟩ (field 1) (field 2)], none⟩
    ofNodes [.prim "pair" [.prim "nat" [] ["%a"], .prim "nat" [] ["%a"]] []] = .ok t
      ∧ ∃ s, t.schema 0 = .ok s ∧ s.required = ["a", "a"] ∧ s.properties.map (·.1) = ["a"]
        ∧ ¬ ∀ o : Schema, o.IsPart s → o.required.Nodup ∧ o.required = o.properties.map (·.1) := by
  intro field t
  refine ⟨rfl, ?_⟩
  have hfield (id : Nat) : ∃ s, (field id).schema 0 = .ok s := by
    obtain ⟨s, hs⟩ : ∃ s, (field id).IsDescribed 0 s := Ty.isDescribed_scalar _ _
    exact ⟨s, hs.schema⟩
  obtain ⟨first, hfirst⟩ := hfield 1
  obtain ⟨second, hsecond⟩ := hfield 2
  have hprops : Ty.properties 0 (Ty.pair ⟨0, 0, []⟩ (field 1) (field 2)).members
      = .ok [("a", first), ("a", second)] := by
    show [field 1, field 2].mapM _ = _
    rw [List.mapM_cons, List.mapM_cons, hfirst, hsecond]
    rfl
  -- both members are required, but the later property takes the place of the first one
  let s := (Schema.ofTy "object" (.pair ⟨0, 0, []⟩ (field 1) (field 2))).withProperties
    [("a", first), ("a", second)]
  have hroot : (Ty.pair ⟨0, 0, []⟩ (field 1) (field 2)).schema 0 = .ok s := by
    rw [Ty.schema_pair]
    exact bind_eq_ok_iff.2 ⟨_, hprops, rfl⟩
  have hschema : t.schema 0 = .ok s := by
    rw [schema]
    exact bind_eq_ok_iff.2 ⟨s, hroot, rfl⟩
  refine ⟨s, hschema, rfl, rfl, fun hall => ?_⟩
  have hnodup : ["a", "a"].Nodup := (hall s .self).1
  revert hnodup
  decide

end Tree

end Micheline
