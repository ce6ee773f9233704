/-
Micheline/Proofs/Form/Throughout.lean

The schemas in a schema, and what each of them requires.  An object requires names in the order
in which it was given its properties, and has a property for every name.  Of properties of one
name only the last one is there, and the name is required as often as it was given.
-/
import Micheline.Form.Schema
import Micheline.Proofs.Json.Members

namespace Micheline

namespace Schema

/-! ### Schemas in schemas -/

/-- A schema in a schema: itself, or in a property, a branch or the items of it. -/
inductive IsPart : Schema → Schema → Prop
  | self {s} : IsPart s s
  | property {o s} {p : String × Schema} (hp : p ∈ s.properties) (h : IsPart o p.2) : IsPart o s
  | branch {o s b} (hb : b ∈ s.oneOf) (h : IsPart o b) : IsPart o s
  | item {o s item} (hitem : s.items = some item) (h : IsPart o item) : IsPart o s

/-- Something holds of a schema and of all schemas in it. -/
def Throughout (P : Schema → Prop) (s : Schema) : Prop :=
  ∀ o, IsPart o s → P o

variable {P : Schema → Prop} {s base : Schema} {ps : List (String × Schema)}

/-- What holds throughout a schema holds of it and throughout its properties, branches and
items. -/
theorem throughout_iff : s.Throughout P ↔ P s ∧ (∀ p ∈ s.properties, p.2.Throughout P)
    ∧ (∀ b ∈ s.oneOf, b.Throughout P) ∧ ∀ item, s.items = some item → item.Throughout P := by
  constructor
  · intro h
    exact ⟨h s .self, fun p hp o ho => h o (.property hp ho), fun b hb o ho => h o (.branch hb ho),
      fun item hitem o ho => h o (.item hitem ho)⟩
  · rintro ⟨hself, hproperties, hbranches, hitems⟩ o ho
    cases ho with
    | self => exact hself
    | property hp ho => exact hproperties _ hp o ho
    | branch hb ho => exact hbranches _ hb o ho
    | item hitem ho => exact hitems _ hitem o ho

/-- A schema without any schemas in it. -/
structure IsBare (s : Schema) : Prop where
  properties : s.properties = []
  oneOf : s.oneOf = []
  required : s.required = []
  items : s.items = none

theorem IsBare.throughout_iff (h : s.IsBare) : s.Throughout P ↔ P s := by
  rw [Schema.throughout_iff, h.properties, h.oneOf, h.items]
  simp

/-- Of the properties that were given only those of different names remain. -/
theorem throughout_withProperties (h : base.IsBare) :
    (base.withProperties ps).Throughout P
      ↔ P (base.withProperties ps) ∧ ∀ p ∈ Members.ofList ps, p.2.Throughout P := by
  have hproperties : (base.withProperties ps).properties = Members.ofList ps := by
    rw [withProperties, h.properties, List.nil_append]
  have hone : (base.withProperties ps).oneOf = [] := h.oneOf
  have hitems : (base.withProperties ps).items = none := h.items
  rw [throughout_iff, hproperties, hone, hitems]
  simp

theorem throughout_branches {bs : List Schema} (h : base.IsBare) :
    ({ base with oneOf := bs } : Schema).Throughout P
      ↔ P { base with oneOf := bs } ∧ ∀ b ∈ bs, b.Throughout P := by
  rw [throughout_iff, h.properties, h.items]
  simp

theorem throughout_items {item : Schema} {title : Option String} (h : base.IsBare) :
    ({ base with items := some item, itemTitle := title } : Schema).Throughout P
      ↔ P { base with items := some item, itemTitle := title } ∧ item.Throughout P := by
  rw [throughout_iff, h.properties, h.oneOf]
  simp

/-! ### What is required -/

/-- No name is required twice. -/
def IsDistinct (s : Schema) : Prop :=
  s.required.Nodup

theorem required_withProperties (h : base.IsBare) :
    (base.withProperties ps).required = ps.map (·.1) := by
  rw [withProperties, h.required, List.nil_append]

/-- The properties of a schema are those that it requires, in the order in which their names
stand first; so they are the same lists exactly if no name is required twice. -/
structure KeepsNames (s : Schema) : Prop where
  names : s.properties.map (·.1) = s.required.eraseDups
  names_eq_iff : s.properties.map (·.1) = s.required ↔ s.IsDistinct

/-- The properties of a schema are those that it requires, each once. -/
theorem keepsNames_withProperties (h : base.IsBare) : (base.withProperties ps).KeepsNames := by
  have hproperties : (base.withProperties ps).properties = Members.ofList ps := by
    rw [withProperties, h.properties, List.nil_append]
  refine ⟨?_, ?_⟩
  · rw [hproperties, required_withProperties h]
    exact Members.map_fst_ofList ps
  · rw [IsDistinct, hproperties, required_withProperties h]
    exact Members.map_fst_ofList_eq_iff

/-- A schema without properties requires nothing. -/
theorem keepsNames_of_nil (hproperties : s.properties = []) (hrequired : s.required = []) :
    s.KeepsNames := by
  refine ⟨?_, ?_⟩
  · rw [hproperties, hrequired]
    rfl
  · rw [IsDistinct, hproperties, hrequired]
    exact iff_of_true rfl List.nodup_nil

/-- Where no name repeats, all properties are there. -/
theorem throughout_isDistinct_withProperties (h : base.IsBare) :
    (base.withProperties ps).Throughout IsDistinct
      ↔ (ps.map (·.1)).Nodup ∧ ∀ p ∈ ps, p.2.Throughout IsDistinct := by
  rw [throughout_withProperties h, IsDistinct, required_withProperties h]
  exact and_congr_right fun hnodup => by rw [Members.ofList_of_nodup hnodup]

theorem isBare_ofTy (kind : String) (ty : Ty) : (ofTy kind ty).IsBare :=
  ⟨rfl, rfl, rfl, rfl⟩

theorem isBare_ofContent (now : Int) (ty : Ty) (content : Content) :
    (ofContent now ty content).IsBare := by
  cases content <;> exact ⟨rfl, rfl, rfl, rfl⟩

theorem prim_ofContent (now : Int) (ty : Ty) (content : Content) :
    (ofContent now ty content).prim = some ty.prim.name := by
  cases content <;> rfl

theorem branch_withProperties (title key : String) :
    (branch title key).withProperties ps
      = ({ title := some title } : Schema).withProperties
        ((branchKey, discriminator key) :: ps) :=
  rfl

end Schema

end Micheline
