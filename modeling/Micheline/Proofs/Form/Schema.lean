/-
Micheline/Proofs/Form/Schema.lean

Schemas of forms and what is entered in them.  Data follows a schema if its objects have
exactly the properties that the schema requires (`Schema.Follows`); only the entries of a map
may be without a property for the unit.  A type with forms has a schema, and what is entered
for its values follows it (`Ty.exists_isDescribed`).
-/
import Micheline.Form.Submission
import Micheline.Proofs.Form.Entered
import Micheline.Proofs.Json.Members

namespace Micheline

/-! ### Following a schema -/

namespace Schema

/-- The schema of a property that is the unit. -/
def IsUnitProperty (s : Schema) (name : String) : Prop :=
  ∃ p, Members.find? name s.properties = some p ∧ p.prim = some Prim.unit.name

/-- Data follows a schema.  A constant is as it says; texts stand for numbers too; an object has
exactly the properties that are required, each once, and they follow theirs; an object with
branches is as one of them says; a list has items that follow theirs, where the entries of a
map need no properties for the unit.  What texts are made of is not looked at. -/
inductive Follows : Schema → Json → Prop
  | constant {s data} (h : s.constant = some data) : Follows s data
  | text {s text} (hconstant : s.constant = none)
      (hkind : s.kind = some "string" ∨ s.kind = some "integer") : Follows s (.str text)
  | flag {s value} (hkind : s.kind = some "boolean") : Follows s (.bool value)
  | object {s ms} (hkind : s.kind = some "object" ∨ s.kind = none) (hone : s.oneOf = [])
      (hnodup : s.required.Nodup) (hnames : ms.map (·.1) = s.required)
      (hknown : ∀ m ∈ ms, (Members.find? m.1 s.properties).isSome = true)
      (hms : ∀ m ∈ ms, ∀ p, Members.find? m.1 s.properties = some p → Follows p m.2) :
      Follows s (.obj ms)
  | branch {s b data} (hkind : s.kind = some "object") (hb : b ∈ s.oneOf) (h : Follows b data) :
      Follows s data
  | list {s item items} (hkind : s.kind = some "array") (hitem : s.items = some item)
      (h : ∀ data ∈ items, Follows item data) : Follows s (.arr items)
  | entries {s item} {entries : List (List (String × Json))} (hkind : s.kind = some "array")
      (hprim : s.prim = some Prim.map.name ∨ s.prim = some Prim.bigMap.name)
      (hitem : s.items = some item) (hnodup : item.required.Nodup)
      (hsub : ∀ ms ∈ entries, (ms.map (·.1)).Sublist item.required)
      (hunit : ∀ ms ∈ entries, ∀ name ∈ item.required,
        name ∉ ms.map (·.1) → item.IsUnitProperty name)
      (hknown : ∀ ms ∈ entries, ∀ m ∈ ms, (Members.find? m.1 item.properties).isSome = true)
      (hms : ∀ ms ∈ entries, ∀ m ∈ ms, ∀ p, Members.find? m.1 item.properties = some p →
        Follows p m.2) : Follows s (.arr (entries.map .obj))

/-- Members that follow the properties of a schema, one by one. -/
abbrev FollowAll (ms : List (String × Json)) (props : List (String × Schema)) : Prop :=
  List.Forall₂ (fun m p => m.1 = p.1 ∧ p.2.Follows m.2) ms props

theorem FollowAll.map_fst {ms : List (String × Json)} {props : List (String × Schema)}
    (h : FollowAll ms props) : ms.map (·.1) = props.map (·.1) := by
  induction h with
  | nil => rfl
  | cons hmp _ ih => rw [List.map_cons, List.map_cons, hmp.1, ih]

/-- Each member of an object follows the schema of its name. -/
theorem FollowAll.exists_of_mem {ms : List (String × Json)} {props : List (String × Schema)}
    (h : FollowAll ms props) {m : String × Json} (hm : m ∈ ms) :
    ∃ p, (m.1, p) ∈ props ∧ p.Follows m.2 := by
  induction h with
  | nil => cases hm
  | @cons _ p _ _ hmp _ ih =>
    rcases List.mem_cons.1 hm with rfl | hm
    · exact ⟨p.2, by rw [hmp.1]; exact List.mem_cons_self, hmp.2⟩
    · obtain ⟨q, hq, hfollows⟩ := ih hm
      exact ⟨q, List.mem_cons_of_mem p hq, hfollows⟩

/-- Members that follow the properties are found among these. -/
theorem FollowAll.follows_of_find? {s : Schema} {ms : List (String × Json)}
    {props : List (String × Schema)} (h : FollowAll ms props)
    (hprops : s.properties = Members.ofList props) (hnodup : (props.map (·.1)).Nodup)
    {m : String × Json} (hm : m ∈ ms) :
    (Members.find? m.1 s.properties).isSome = true
      ∧ ∀ p, Members.find? m.1 s.properties = some p → p.Follows m.2 := by
  obtain ⟨p, hp, hfollows⟩ := h.exists_of_mem hm
  have hfind : Members.find? m.1 s.properties = some p := by
    rw [hprops, Members.ofList_of_nodup hnodup]
    exact Members.find?_of_mem hnodup hp
  refine ⟨by rw [hfind]; rfl, fun q hq => ?_⟩
  obtain rfl := Option.some.inj (hfind.symm.trans hq)
  exact hfollows

/-- An object with a member for each property. -/
theorem FollowAll.follows {s : Schema} {ms : List (String × Json)} {props : List (String × Schema)}
    (h : FollowAll ms props) (hkind : s.kind = some "object" ∨ s.kind = none)
    (hone : s.oneOf = []) (hprops : s.properties = Members.ofList props)
    (hrequired : s.required = props.map (·.1)) (hnodup : (props.map (·.1)).Nodup) :
    s.Follows (.obj ms) :=
  .object hkind hone (hrequired ▸ hnodup) (h.map_fst.trans hrequired.symm)
    (fun _ hm => (h.follows_of_find? hprops hnodup hm).1)
    (fun _ hm => (h.follows_of_find? hprops hnodup hm).2)

end Schema

/-! ### Types -/

namespace Ty

/-- A type has the schema, and what is entered for its values follows it. -/
structure IsDescribed (now : Int) (ty : Ty) (s : Schema) : Prop where
  schema : ty.schema now = .ok s
  /-- The values are objects if a single root of the type stands for itself. -/
  alone : s.isObject = ty.submitsAlone
  follows : ∀ v, Typed.IsEnterable ⟨ty, v⟩ → s.Follows (ty.form v)

variable {now : Int}

/-! ### Literals -/

/-- A type whose values are entered as texts, by a schema of texts or numbers. -/
theorem isDescribed_of_text {ty : Ty} {s : Schema} (hs : ty.schema now = .ok s)
    (hconstant : s.constant = none) (hkind : s.kind = some "string" ∨ s.kind = some "integer")
    (halone : ty.submitsAlone = false)
    (hform : ∀ v, ty.Holds true v → ∃ text, ty.form v = .str text) : ty.IsDescribed now s := by
  refine ⟨hs, ?_, fun v hv => ?_⟩
  · rw [Schema.isObject, halone]
    rcases hkind with h | h <;> rw [h] <;> rfl
  · obtain ⟨text, htext⟩ := hform v hv.held
    rw [htext]
    exact .text hconstant hkind

theorem exists_literal_form (l : Literal) : ∃ text, l.form = .str text := by
  cases l <;> exact ⟨_, rfl⟩

theorem isDescribed_scalar (i : Info) (kind : Scalar) :
    ∃ s, (scalar i kind).IsDescribed now s := by
  have hschema : ∃ s, (scalar i kind).schema now = .ok s ∧ s.constant = none
      ∧ (s.kind = some "string" ∨ s.kind = some "integer") := by
    by_cases haddress : kind = .address
    · subst haddress
      exact ⟨_, by rw [schema], rfl, .inl rfl⟩
    · refine ⟨_, by rw [schema]; exact haddress, ?_, ?_⟩ <;> cases kind
      all_goals first | rfl | exact .inl rfl | exact .inr rfl
  obtain ⟨s, hs, hconstant, hkind⟩ := hschema
  refine ⟨s, isDescribed_of_text hs hconstant hkind rfl fun v hv => ?_⟩
  cases hv with
  | scalar hl =>
    rw [form]
    exact exists_literal_form _

theorem isDescribed_contract (i : Info) (param : Ty) :
    ∃ s, (contract i param).IsDescribed now s := by
  refine ⟨_, isDescribed_of_text (by rw [schema]) rfl (.inl rfl) rfl fun v hv => ?_⟩
  cases hv with
  | contract hl =>
    rw [form]
    exact exists_literal_form _

/-! ### Pairs -/

/-- The properties for several types, none for the unit. -/
def properties (now : Int) (tys : List Ty) : Except Error (List (String × Schema)) :=
  (tys.filter (!·.isUnit)).mapM fun ty => do return (ty.name, ← ty.schema now)

/-- The schemas of types that are described make properties that their forms follow. -/
theorem exists_properties {tys : List Ty} (h : ∀ ty ∈ tys, ∃ s, ty.IsDescribed now s) :
    ∃ props, properties now tys = .ok props ∧ props.map (·.1) = properNames tys
      ∧ ∀ ts : List Typed, ts.map (·.ty) = tys → (∀ t ∈ ts, t.IsEnterable) →
        Schema.FollowAll (ts.flatMap Typed.property) props := by
  induction tys with
  | nil =>
    refine ⟨[], rfl, rfl, fun ts hts _ => ?_⟩
    obtain rfl := List.map_eq_nil_iff.1 hts
    exact .nil
  | cons ty tys ih =>
    obtain ⟨⟨s, hs⟩, hrest⟩ := List.forall_mem_cons.1 h
    obtain ⟨props, hprops, hnames, hfollow⟩ := ih hrest
    rw [properties, properNames, List.filter_cons]
    -- A unit has no property, in the schema and in the form alike; any other part has one in
    -- both, and it is the first.
    by_cases hunit : ty.isUnit = true
    · refine ⟨props, ?_, ?_, fun ts hts hheld => ?_⟩
      · rw [hunit]
        exact hprops
      · rw [hunit]
        exact hnames
      · obtain ⟨t, ts, rfl, ht, hts⟩ := List.map_eq_cons_iff.1 hts
        rw [List.flatMap_cons, Typed.property, property, ht, hunit]
        exact hfollow ts hts (List.forall_mem_cons.1 hheld).2
    · rw [Bool.not_eq_true] at hunit
      refine ⟨(ty.name, s) :: props, ?_, ?_, fun ts hts hheld => ?_⟩
      · rw [hunit]
        show List.mapM _ (ty :: _) = _
        rw [List.mapM_cons, hs.schema]
        exact bind_eq_ok_iff.2 ⟨_, rfl, bind_eq_ok_iff.2 ⟨_, hprops, rfl⟩⟩
      · rw [hunit]
        exact congrArg (ty.name :: ·) hnames
      · obtain ⟨t, ts, rfl, rfl, hrest⟩ := List.map_eq_cons_iff.1 hts
        obtain ⟨ht, hheld⟩ := List.forall_mem_cons.1 hheld
        rw [List.flatMap_cons, Typed.property, property, hunit]
        exact .cons ⟨rfl, hs.follows _ ht⟩ (hfollow ts hrest hheld)

/-- The schema of a pair is the object of its members. -/
theorem schema_pair {i : Info} {left right : Ty} :
    (pair i left right).schema now = (do
      let props ← properties now (pair i left right).members
      return (Schema.ofTy "object" (.pair i left right)).withProperties props) := by
  have hattach : (((pair i left right).members.filter (!·.isUnit)).attach.mapM fun m => do
      return (m.1.name, ← schema now m.1)) = properties now (pair i left right).members :=
    mapM_attach (f := fun m => do return (m.name, ← schema now m))
  rw [schema, ← hattach]

/-- A pair is described if its members are, since no two of them have one name. -/
theorem isDescribed_pair {i : Info} {left right : Ty} (hform : (pair i left right).HasForm)
    (h : ∀ m ∈ (pair i left right).members, ∃ s, m.IsDescribed now s) :
    ∃ s, (pair i left right).IsDescribed now s := by
  obtain ⟨props, hprops, hnames, hfollow⟩ := exists_properties h
  refine ⟨(Schema.ofTy "object" (.pair i left right)).withProperties props, ?_, rfl, fun v hv => ?_⟩
  · rw [schema_pair]
    exact bind_eq_ok_iff.2 ⟨props, hprops, rfl⟩
  · have hall := hfollow (Typed.members (.pair i left right) v) (map_ty_members hv.held)
      fun m hm => hv.of_isPart (Typed.isPart_of_mem_members hm)
    rw [form_pair]
    refine hall.follows (.inl rfl) rfl rfl rfl ?_
    rw [hnames]
    exact hform.2.2

/-! ### Options and choices -/

theorem properties_singleton (ty : Ty) :
    properties now [ty]
      = (if ty.isUnit then pure [] else do pure [(ty.name, ← ty.schema now)]) := by
  rw [properties, List.filter_cons]
  cases ty.isUnit
  · show List.mapM _ [ty] = _
    rw [List.mapM_cons, bind_assoc]
    rfl
  · rfl

/-- What is entered for a payload next to the key of its branch follows the schema of the
branch. -/
theorem follows_branch {title key : String} {ty : Ty} {props : List (String × Schema)} {v : Val}
    (hname : ty.name ≠ branchKey) (hnames : props.map (·.1) = properNames [ty])
    (h : Schema.FollowAll (ty.property (ty.form v)) props) :
    ((Schema.branch title key).withProperties props).Follows
      (.obj ((branchKey, .str key) :: ty.property (ty.form v))) := by
  have hkey : (Schema.discriminator key).Follows (.str key) := .constant rfl
  have hall : Schema.FollowAll ((branchKey, .str key) :: ty.property (ty.form v))
      ((branchKey, Schema.discriminator key) :: props) := .cons ⟨rfl, hkey⟩ h
  refine hall.follows (.inr rfl) rfl rfl rfl ?_
  rw [List.map_cons, hnames]
  exact nodup_branch_names hname

/-- The properties of a payload, and what is entered for it. -/
theorem exists_payload {ty : Ty} (h : ∃ s, ty.IsDescribed now s) :
    ∃ props, properties now [ty] = .ok props ∧ props.map (·.1) = properNames [ty]
      ∧ ∀ v, Typed.IsEnterable ⟨ty, v⟩ →
        Schema.FollowAll (ty.property (ty.form v)) props := by
  obtain ⟨props, hprops, hnames, hfollow⟩ := exists_properties (List.forall_mem_singleton.2 h)
  refine ⟨props, hprops, hnames, fun v hv => ?_⟩
  have hall := hfollow [⟨ty, v⟩] rfl (List.forall_mem_singleton.2 hv)
  rwa [List.flatMap_singleton] at hall

/-- The schema of an option has two branches. -/
theorem schema_option {i : Info} {inner : Ty} :
    (option i inner).schema now = (do
      let props ← properties now [inner]
      return { Schema.ofTy "object" (.option i inner) with
        oneOf := [Schema.branch "None" "none",
          (Schema.branch "Some" "some").withProperties props] }) := by
  rw [schema, properties_singleton]
  cases inner.isUnit with
  | true => rfl
  | false => rcases inner.schema now with e | s <;> rfl

theorem isDescribed_option {i : Info} {inner : Ty} (hform : (option i inner).HasForm)
    (h : ∃ s, inner.IsDescribed now s) : ∃ s, (option i inner).IsDescribed now s := by
  obtain ⟨props, hprops, hnames, hfollow⟩ := exists_payload h
  refine ⟨_, by rw [schema_option, hprops]; rfl, rfl, fun v hv => ?_⟩
  cases hv.held with
  | none =>
    have hall : Schema.FollowAll [(branchKey, .str "none")]
        [(branchKey, Schema.discriminator "none")] := .cons ⟨rfl, .constant rfl⟩ .nil
    rw [form]
    exact .branch rfl List.mem_cons_self
      (hall.follows (.inr rfl) rfl rfl rfl (List.nodup_singleton _))
  | some ha =>
    rw [form]
    exact .branch rfl (List.mem_cons_of_mem _ List.mem_cons_self)
      (follows_branch hform.2 hnames (hfollow _ (hv.of_isPart (.single List.mem_cons_self))))

/-- The schema of the branch for a leaf. -/
def branchOf (now : Int) (leaf : List Side × Ty) : Except Error Schema := do
  let props ← properties now [leaf.2]
  return (Schema.branch leaf.2.name (pathKey leaf.1)).withProperties props

/-- The schema of a choice has a branch for each leaf. -/
theorem schema_or {i : Info} {left right : Ty} :
    (or i left right).schema now = (do
      let branches ← (or i left right).leaves.mapM (branchOf now)
      return { Schema.ofTy "object" (.or i left right) with oneOf := branches }) := by
  have hattach : ((or i left right).leaves.attach.mapM fun leaf => branchOf now leaf.1)
      = (or i left right).leaves.mapM (branchOf now) :=
    mapM_attach
  rw [schema, ← hattach]
  congr 2
  funext a
  obtain ⟨⟨path, leaf⟩, -⟩ := a
  rw [branchOf, properties_singleton]
  dsimp only
  cases leaf.isUnit with
  | true => rfl
  | false => rcases leaf.schema now with e | s <;> rfl

/-- A choice is described if its leaves are: the form follows the branch of the active leaf. -/
theorem isDescribed_or {i : Info} {left right : Ty} (hform : (or i left right).HasForm)
    (h : ∀ leaf ∈ (or i left right).leaves, ∃ s, leaf.2.IsDescribed now s) :
    ∃ s, (or i left right).IsDescribed now s := by
  have hbranch : ∀ leaf ∈ (or i left right).leaves, ∃ b, branchOf now leaf = .ok b := by
    intro leaf hleaf
    obtain ⟨props, hprops, -, -⟩ := exists_payload (h leaf hleaf)
    exact ⟨_, bind_eq_ok_iff.2 ⟨props, hprops, rfl⟩⟩
  obtain ⟨bs, hbs⟩ := exists_mapM hbranch
  refine ⟨_, by rw [schema_or, hbs]; rfl, rfl, fun v hv => ?_⟩
  -- A choice is described by the branch of its active leaf, so that branch must be one of those.
  obtain ⟨path, leaf, hactive⟩ := exists_activeLeaf? hv.held
  have hleaf := Ty.mem_leaves_of_activeLeaf? hactive
  obtain ⟨props, hprops, hnames, hfollow⟩ := exists_payload (h _ hleaf)
  obtain ⟨b, hb, hbranch⟩ := exists_of_mem_of_mapM hbs _ hleaf
  obtain rfl : _ = b := Except.ok.inj
    ((bind_eq_ok_iff.2 ⟨props, hprops, rfl⟩ : branchOf now (path, leaf.ty) = .ok _).symm.trans
      hbranch)
  rw [form_or hactive]
  exact .branch rfl hb (follows_branch (hform.2.2 _ hleaf) hnames
    (hfollow _ (hv.of_isPart (Typed.isPart_of_activeLeaf? hactive))))

/-! ### Collections -/

theorem schema_items {ty elem : Ty} (hty : ty.HasItems elem) :
    ty.schema now = (do
      let item ← elem.schema now
      return { Schema.ofTy "array" ty with items := some item, itemTitle := some elem.name }) := by
  cases hty <;> rw [schema]

/-- The items of a list or a set follow the schema of items. -/
theorem isDescribed_items {ty elem : Ty} (hty : ty.HasItems elem)
    (h : ∃ s, elem.IsDescribed now s) : ∃ s, ty.IsDescribed now s := by
  obtain ⟨item, hitem⟩ := h
  refine ⟨_, by rw [schema_items hty, hitem.schema]; rfl, by cases hty <;> rfl, fun v hv => ?_⟩
  obtain ⟨values, rfl, hvalues⟩ := hv.exists_items hty
  rw [form_items hty]
  refine .list rfl rfl fun data hdata => ?_
  obtain ⟨x, hx, rfl⟩ := List.mem_map.1 hdata
  exact hitem.follows x (hvalues x hx)

theorem property_sublist {ty : Ty} {data : Json} :
    List.Sublist (ty.property data) [(ty.name, data)] := by
  rw [property]
  split
  · exact List.nil_sublist _
  · exact List.Sublist.refl _

theorem isUnit_of_notMem_property {ty : Ty} {data : Json}
    (h : ty.name ∉ (ty.property data).map (·.1)) : ty.isUnit = true := by
  by_contra hunit
  refine h ?_
  rw [property, if_neg hunit]
  exact List.mem_singleton_self _

theorem IsDescribed.prim_of_isUnit {ty : Ty} {s : Schema} (h : ty.IsDescribed now s)
    (hunit : ty.isUnit = true) : s.prim = some Prim.unit.name := by
  cases ty with
  | unit i =>
    have hs := h.schema
    rw [Ty.schema] at hs
    obtain rfl := Except.ok.inj hs
    rfl
  | _ => cases hunit

section Entries

variable {ks vs : Schema} {key value : Ty} {p : Val × Val}

/-- Key and value are found under their names, since these differ. -/
theorem find?_entrySchema {k v m : String × Schema} (hne : k.1 ≠ v.1) (hm : m ∈ [k, v]) :
    Members.find? m.1 (schema.entrySchema k v).properties = some m.2 := by
  have hnodup : ([k, v].map (·.1)).Nodup := by simpa using hne
  have hproperties : (schema.entrySchema k v).properties = [k, v] :=
    Members.ofList_of_nodup hnodup
  rw [hproperties]
  exact Members.find?_of_mem hnodup hm

/-- What is entered for an entry is some of what would be entered if nothing were the unit. -/
theorem entryProperties_sublist :
    (entryProperties key value p).Sublist
      [(key.name, key.form p.1), (value.name, value.form p.2)] := by
  rw [entryProperties_eq]
  exact property_sublist.append property_sublist

/-- Nothing but the unit is left out of an entry. -/
theorem isUnitProperty_of_notMem {name : String} (hne : key.name ≠ value.name)
    (hk : key.IsDescribed now ks) (hv : value.IsDescribed now vs)
    (hname : name ∈ [key.name, value.name])
    (hnotMem : name ∉ (entryProperties key value p).map (·.1)) :
    (schema.entrySchema (key.name, ks) (value.name, vs)).IsUnitProperty name := by
  rw [entryProperties_eq, List.map_append, List.mem_append, not_or] at hnotMem
  rcases List.mem_pair.1 hname with rfl | rfl
  · have hfind := find?_entrySchema (k := (key.name, ks)) (v := (value.name, vs)) hne
      List.mem_cons_self
    exact ⟨ks, hfind, hk.prim_of_isUnit (isUnit_of_notMem_property hnotMem.1)⟩
  · have hfind := find?_entrySchema (k := (key.name, ks)) (v := (value.name, vs)) hne
      (List.mem_cons_of_mem _ List.mem_cons_self)
    exact ⟨vs, hfind, hv.prim_of_isUnit (isUnit_of_notMem_property hnotMem.2)⟩

/-- The entries of a map follow the schema of entries. -/
theorem follows_entries {s : Schema} {pairs : List (Val × Val)} (hkind : s.kind = some "array")
    (hprim : s.prim = some Prim.map.name ∨ s.prim = some Prim.bigMap.name)
    (hitem : s.items = some (schema.entrySchema (key.name, ks) (value.name, vs)))
    (hk : key.IsDescribed now ks) (hv : value.IsDescribed now vs) (hne : key.name ≠ value.name)
    (hkeys : ∀ p ∈ pairs, Typed.IsEnterable ⟨key, p.1⟩)
    (hvalues : ∀ p ∈ pairs, Typed.IsEnterable ⟨value, p.2⟩) :
    s.Follows (.arr ((pairs.map (entryProperties key value)).map .obj)) := by
  have hnodup : [key.name, value.name].Nodup := by simpa using hne
  have hfollow {p : Val × Val} (hp : p ∈ pairs) {m : String × Json}
      (hm : m ∈ entryProperties key value p) :=
    have hfull : Schema.FollowAll [(key.name, key.form p.1), (value.name, value.form p.2)]
        [(key.name, ks), (value.name, vs)] :=
      .cons ⟨rfl, hk.follows _ (hkeys p hp)⟩ (.cons ⟨rfl, hv.follows _ (hvalues p hp)⟩ .nil)
    hfull.follows_of_find? (s := schema.entrySchema (key.name, ks) (value.name, vs)) rfl hnodup
      (entryProperties_sublist.subset hm)
  refine .entries hkind hprim hitem hnodup ?_ ?_ ?_ ?_
  · exact List.forall_mem_map.2 fun p _ => entryProperties_sublist.map (·.1)
  · exact List.forall_mem_map.2 fun p _ name => isUnitProperty_of_notMem hne hk hv
  · exact List.forall_mem_map.2 fun p hp m hm => (hfollow hp hm).1
  · exact List.forall_mem_map.2 fun p hp m hm => (hfollow hp hm).2

end Entries

theorem schema_entries {ty key value : Ty} (hty : ty.HasEntries key value) :
    ty.schema now = (do
      let ks ← key.schema now
      let vs ← value.schema now
      return { Schema.ofTy "array" ty with
        items := some (schema.entrySchema (key.name, ks) (value.name, vs))
        itemTitle := some key.name }) := by
  cases hty <;> rw [schema]

/-- A map is described if its keys and values are and have different names. -/
theorem isDescribed_entries {ty key value : Ty} (hty : ty.HasEntries key value)
    (hne : key.name ≠ value.name) (hk : ∃ s, key.IsDescribed now s)
    (hv : ∃ s, value.IsDescribed now s) : ∃ s, ty.IsDescribed now s := by
  obtain ⟨ks, hk⟩ := hk
  obtain ⟨vs, hv⟩ := hv
  have hschema : ty.schema now = .ok { Schema.ofTy "array" ty with
      items := some (schema.entrySchema (key.name, ks) (value.name, vs))
      itemTitle := some key.name } := by
    rw [schema_entries hty, hk.schema, hv.schema]
    rfl
  have hprim : some ty.prim.name = some Prim.map.name
      ∨ some ty.prim.name = some Prim.bigMap.name := by
    cases hty with
    | map => exact .inl rfl
    | bigMap => exact .inr rfl
  refine ⟨_, hschema, by cases hty <;> rfl, fun v hentered => ?_⟩
  obtain ⟨pairs, rfl, hpairs⟩ := hentered.exists_entries hty
  rw [form_entries hty]
  exact follows_entries rfl hprim rfl hk hv hne (fun p hp => (hpairs p hp).1)
    fun p hp => (hpairs p hp).2

/-! ### All types with forms -/

/-- **A type with forms has a schema, and what is entered for its values follows it.** -/
theorem exists_isDescribed (now : Int) {ty : Ty} (h : ty.HasForm) : ∃ s, ty.IsDescribed now s := by
  -- By induction on the size: the members of a comb and the leaves of a choice are not the
  -- type's direct parts.
  induction hsize : ty.size using Nat.strongRecOn generalizing ty with
  | _ size ih =>
    subst hsize
    have hsmaller {c : Ty} (hc : c.HasForm) (hlt : c.size < ty.size) :
        ∃ s, c.IsDescribed now s := ih _ hlt hc rfl
    cases ty with
    | unit i =>
      refine ⟨_, by rw [schema], rfl, fun v _ => ?_⟩
      have hall : Schema.FollowAll [] [] := .nil
      rw [form]
      exact hall.follows (.inl rfl) rfl rfl rfl List.nodup_nil
    | bool i =>
      refine ⟨_, by rw [schema], rfl, fun v hv => ?_⟩
      cases hv.held with
      | bool =>
        rw [form]
        exact .flag rfl
    | scalar i kind => exact isDescribed_scalar i kind
    | contract i param => exact isDescribed_contract i param
    | pair i left right =>
      exact isDescribed_pair h fun m hm =>
        hsmaller (hasForm_of_mem_members h hm) (size_lt_of_mem_members hm)
    | or i left right =>
      exact isDescribed_or h fun leaf hleaf =>
        hsmaller (hasForm_of_mem_leaves h hleaf) (size_lt_of_mem_leaves hleaf)
    | option i inner =>
      exact isDescribed_option h (hsmaller h.1 (by simp only [size]; omega))
    | list i elem => exact isDescribed_items .list (hsmaller h (HasItems.size_lt .list))
    | set i elem => exact isDescribed_items .set (hsmaller h (HasItems.size_lt .set))
    | map i key value =>
      obtain ⟨hkey, hvalue, hne⟩ := h
      exact isDescribed_entries .map hne (hsmaller hkey (HasEntries.size_key_lt .map))
        (hsmaller hvalue (HasEntries.size_value_lt .map))
    | bigMap i key value =>
      obtain ⟨hkey, hvalue, hne⟩ := h
      exact isDescribed_entries .bigMap hne (hsmaller hkey (HasEntries.size_key_lt .bigMap))
        (hsmaller hvalue (HasEntries.size_value_lt .bigMap))
    | _ => cases h

end Ty

end Micheline
