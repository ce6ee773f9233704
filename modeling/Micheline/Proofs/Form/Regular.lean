/-
Micheline/Proofs/Form/Regular.lean

The objects in the schema of a type: pairs, the branches of options and choices, and the
entries of maps.  All of them require each name once exactly if no two parts of one object have
the same name (`Ty.NamesDiffer`), and then a pair has a property for each member that is not the
unit, those of the inner pairs included (`Ty.isRegular_of_schema`).
-/
import Micheline.Proofs.Form.Schema
import Micheline.Proofs.Form.Throughout

namespace Micheline

namespace Ty

/-! ### Names that stand side by side -/

/-- No two parts that stand in one object have one name: the members of a pair that are not
the unit, the key and the value of a map, and in a branch the property that tells it from the
others and what the branch holds. -/
def NamesDiffer (ty : Ty) : Prop :=
  match ty with
  | .pair i left right => (properNames (Ty.pair i left right).members).Nodup
    ∧ ∀ m, (_h : m ∈ (Ty.pair i left right).members) → m.NamesDiffer
  | .or i left right => ∀ leaf, (_h : leaf ∈ (Ty.or i left right).leaves) →
    (branchKey :: properNames [leaf.2]).Nodup ∧ leaf.2.NamesDiffer
  | .option _ inner => (branchKey :: properNames [inner]).Nodup ∧ inner.NamesDiffer
  | .list _ elem => elem.NamesDiffer
  | .set _ elem => elem.NamesDiffer
  | .map _ key value => key.name ≠ value.name ∧ key.NamesDiffer ∧ value.NamesDiffer
  | .bigMap _ key value => key.name ≠ value.name ∧ key.NamesDiffer ∧ value.NamesDiffer
  | _ => True
termination_by ty.size
decreasing_by
  · exact size_lt_of_mem_members _h
  · exact size_lt_of_mem_leaves _h
  all_goals simp only [size]; omega

variable {now : Int} {tys : List Ty} {props : List (String × Schema)} {s : Schema}

/-- The schema is that of a pair.  It requires the names of the members that are not the unit;
where no name is required twice, it has one property for each of them, in order. -/
def IsPairSchema (now : Int) (s : Schema) : Prop :=
  ∃ i left right, (pair i left right).schema now = .ok s
    ∧ s.required = properNames (pair i left right).members
    ∧ (s.IsDistinct → List.Forall₂ (fun m p => p.1 = m.name ∧ m.schema now = .ok p.2)
        ((pair i left right).members.filter (!·.isUnit)) s.properties)

/-- What is so for every schema in a generated one. -/
structure IsSound (now : Int) (s : Schema) : Prop where
  names : s.KeepsNames
  pair : s.prim = some Prim.pair.name → IsPairSchema now s

/-- The schemas of the type are sound all through, and require no name twice exactly if names
that stand side by side differ. -/
structure IsRegular (now : Int) (ty : Ty) (s : Schema) : Prop where
  sound : s.Throughout (IsSound now)
  distinct : s.Throughout Schema.IsDistinct ↔ ty.NamesDiffer

/-! ### Properties -/

/-- The properties are those of the types that are no units, with their names and schemas. -/
theorem forall₂_of_properties (h : properties now tys = .ok props) :
    List.Forall₂ (fun m p => p.1 = m.name ∧ m.schema now = .ok p.2) (tys.filter (!·.isUnit))
      props := by
  refine forall₂_of_mapM h fun m _ p hp => ?_
  obtain ⟨s, hs, hp⟩ := bind_eq_ok_iff.1 hp
  obtain rfl := pure_eq_ok_iff.1 hp
  exact ⟨rfl, hs⟩

theorem map_fst_of_properties (h : properties now tys = .ok props) :
    props.map (·.1) = properNames tys := by
  have hnames : List.Forall₂ (fun p m => p.1 = m.name) props (tys.filter (!·.isUnit)) :=
    ((forall₂_of_properties h).imp fun _ _ hmp => hmp.1).flip
  rw [properNames, ← List.forall₂_eq_eq_eq, List.forall₂_map_left_iff, List.forall₂_map_right_iff]
  exact hnames

theorem namesDiffer_of_isUnit {ty : Ty} (h : ty.isUnit = true) : ty.NamesDiffer := by
  cases ty with
  | unit i =>
    unfold NamesDiffer
    trivial
  | _ => cases h

/-- The properties of types are regular if their schemas are. -/
theorem regular_of_properties (h : properties now tys = .ok props)
    (ih : ∀ m ∈ tys, ∀ s, m.schema now = .ok s → m.IsRegular now s) :
    (∀ p ∈ props, p.2.Throughout (IsSound now))
      ∧ ((∀ p ∈ props, p.2.Throughout Schema.IsDistinct) ↔ ∀ m ∈ tys, m.NamesDiffer) := by
  -- properties and types other than the unit come of each other
  have hfrom : ∀ p ∈ props, ∃ m ∈ tys, m.IsRegular now p.2 := by
    intro p hp
    obtain ⟨m, hm, hmp⟩ := exists_of_mem_mapM h p hp
    obtain ⟨s, hs, hmp⟩ := bind_eq_ok_iff.1 hmp
    obtain rfl := pure_eq_ok_iff.1 hmp
    have hm := (List.mem_filter.1 hm).1
    exact ⟨m, hm, ih m hm s hs⟩
  have hto : ∀ m ∈ tys, m.isUnit = false → ∃ p ∈ props, m.IsRegular now p.2 := by
    intro m hm hunit
    obtain ⟨p, hp, hmp⟩ := exists_of_mem_of_mapM h m (List.mem_filter.2 ⟨hm, by rw [hunit]; rfl⟩)
    obtain ⟨s, hs, hmp⟩ := bind_eq_ok_iff.1 hmp
    obtain rfl := pure_eq_ok_iff.1 hmp
    exact ⟨_, hp, ih m hm s hs⟩
  refine ⟨fun p hp => ?_, fun hall m hm => ?_, fun hall p hp => ?_⟩
  · obtain ⟨m, -, hm⟩ := hfrom p hp
    exact hm.sound
  · cases hunit : m.isUnit with
    | true => exact namesDiffer_of_isUnit hunit
    | false =>
      obtain ⟨p, hp, hreg⟩ := hto m hm hunit
      exact hreg.distinct.1 (hall p hp)
  · obtain ⟨m, hm, hreg⟩ := hfrom p hp
    exact hreg.distinct.2 (hall m hm)

/-! ### Objects -/

variable {base : Schema}

theorem isPair_of_prim {ty : Ty} (h : ty.prim = .pair) : ty.isPair = true := by
  cases ty with
  | pair i left right => rfl
  | saplingTransaction i deprecated memo => cases deprecated <;> cases h
  | _ => cases h

/-- Only pairs have the name of a pair. -/
theorem prim_name_ne {ty : Ty} (h : ty.isPair = false) :
    some ty.prim.name ≠ some Prim.pair.name := by
  intro hprim
  have hname : some ty.prim = some Prim.pair := by
    rw [← Prim.ofName?_name, Option.some.inj hprim, Prim.ofName?_name]
  cases h.symm.trans (isPair_of_prim (Option.some.inj hname))

/-- A schema without schemas in it is sound, unless it is that of a pair. -/
theorem throughout_isSound_of_isBare (h : s.IsBare) (hprim : s.prim ≠ some Prim.pair.name) :
    s.Throughout (IsSound now) :=
  h.throughout_iff.2 ⟨Schema.keepsNames_of_nil h.properties h.required, fun hp => absurd hp hprim⟩

theorem isDistinct_of_isBare (h : s.IsBare) : s.Throughout Schema.IsDistinct := by
  rw [h.throughout_iff, Schema.IsDistinct, h.required]
  exact List.nodup_nil

/-- An object is sound if its properties are, unless it is that of a pair. -/
theorem throughout_isSound_withProperties (h : base.IsBare)
    (hprim : base.prim ≠ some Prim.pair.name)
    (hprops : ∀ p ∈ props, p.2.Throughout (IsSound now)) :
    (base.withProperties props).Throughout (IsSound now) := by
  refine (Schema.throughout_withProperties h).2 ⟨⟨Schema.keepsNames_withProperties h, ?_⟩, ?_⟩
  · exact fun hp => absurd hp hprim
  · exact fun p hp => hprops p (Members.mem_of_ofList hp)

theorem isRegular_of_isBare {ty : Ty} (h : s.IsBare) (hprim : s.prim ≠ some Prim.pair.name)
    (hnames : ty.NamesDiffer) : ty.IsRegular now s :=
  ⟨throughout_isSound_of_isBare h hprim, iff_of_true (isDistinct_of_isBare h) hnames⟩

theorem isRegular_scalar {i : Info} {kind : Scalar} (h : (scalar i kind).schema now = .ok s) :
    (scalar i kind).IsRegular now s := by
  have hbare := Schema.isBare_ofContent now (scalar i kind) kind.content
  have hprim : (Schema.ofContent now (scalar i kind) kind.content).prim ≠ some Prim.pair.name := by
    rw [Schema.prim_ofContent]
    exact prim_name_ne rfl
  have hnames : (scalar i kind).NamesDiffer := by
    unfold NamesDiffer
    trivial
  -- An address is an arm of its own, with bounds on the text's length.
  by_cases haddress : kind = .address
  · subst haddress
    rw [schema] at h
    obtain rfl := Except.ok.inj h
    exact isRegular_of_isBare ⟨rfl, rfl, rfl, rfl⟩ hprim hnames
  · rw [schema] at h
    · obtain rfl := Except.ok.inj h
      exact isRegular_of_isBare hbare hprim hnames
    · exact haddress

/-- The object of a pair is as its names are: nothing twice exactly if the names differ. -/
theorem isRegular_pair {i : Info} {left right : Ty}
    (h : (pair i left right).schema now = .ok s)
    (ih : ∀ m ∈ (pair i left right).members, ∀ s, m.schema now = .ok s → m.IsRegular now s) :
    (pair i left right).IsRegular now s := by
  have hs := h
  rw [schema_pair] at hs
  obtain ⟨props, hprops, hs⟩ := bind_eq_ok_iff.1 hs
  obtain rfl := pure_eq_ok_iff.1 hs
  have hbare := Schema.isBare_ofTy "object" (pair i left right)
  have hnames := map_fst_of_properties hprops
  obtain ⟨hsound, hdistinct⟩ := regular_of_properties hprops ih
  refine ⟨(Schema.throughout_withProperties hbare).2 ⟨⟨?_, fun _ => ?_⟩, ?_⟩, ?_⟩
  · exact Schema.keepsNames_withProperties hbare
  · refine ⟨i, left, right, h, ?_, fun hnodup => ?_⟩
    · rw [Schema.required_withProperties hbare, hnames]
    · rw [Schema.IsDistinct, Schema.required_withProperties hbare] at hnodup
      -- Members are put in one by one, so a name that comes twice would have overwritten the first.
      have hproperties : ((Schema.ofTy "object" (pair i left right)).withProperties
          props).properties = props := Members.ofList_of_nodup hnodup
      rw [hproperties]
      exact forall₂_of_properties hprops
  · exact fun p hp => hsound p (Members.mem_of_ofList hp)
  · rw [Schema.throughout_isDistinct_withProperties hbare, hnames, hdistinct, NamesDiffer]

/-! ### Branches -/

/-- What is so for the schema of a branch. -/
theorem regular_of_branch (title key : String) {ty : Ty} (h : properties now [ty] = .ok props)
    (ih : ∀ s, ty.schema now = .ok s → ty.IsRegular now s) :
    ((Schema.branch title key).withProperties props).Throughout (IsSound now)
      ∧ (((Schema.branch title key).withProperties props).Throughout Schema.IsDistinct
        ↔ (branchKey :: properNames [ty]).Nodup ∧ ty.NamesDiffer) := by
  have hbare : ({ title := some title } : Schema).IsBare := ⟨rfl, rfl, rfl, rfl⟩
  have hkey : (Schema.discriminator key).IsBare := ⟨rfl, rfl, rfl, rfl⟩
  obtain ⟨hsound, hdistinct⟩ := regular_of_properties h (List.forall_mem_singleton.2 ih)
  rw [Schema.branch_withProperties]
  refine ⟨throughout_isSound_withProperties hbare nofun (List.forall_mem_cons.2 ⟨?_, hsound⟩), ?_⟩
  · exact throughout_isSound_of_isBare hkey nofun
  · rw [Schema.throughout_isDistinct_withProperties hbare, List.map_cons,
      map_fst_of_properties h, List.forall_mem_cons, hdistinct, List.forall_mem_singleton]
    exact and_congr_right fun _ => and_iff_right (isDistinct_of_isBare hkey)

theorem regular_of_none (now : Int) :
    (Schema.branch "None" "none").Throughout (IsSound now)
      ∧ (Schema.branch "None" "none").Throughout Schema.IsDistinct := by
  have hbare : ({ title := some "None" } : Schema).IsBare := ⟨rfl, rfl, rfl, rfl⟩
  have hkey : (Schema.discriminator "none").IsBare := ⟨rfl, rfl, rfl, rfl⟩
  refine ⟨throughout_isSound_withProperties hbare nofun (List.forall_mem_singleton.2 ?_), ?_⟩
  · exact throughout_isSound_of_isBare hkey nofun
  · exact (Schema.throughout_isDistinct_withProperties hbare).2
      ⟨List.nodup_singleton _, List.forall_mem_singleton.2 (isDistinct_of_isBare hkey)⟩

/-- A schema with branches is as its branches are. -/
theorem throughout_isSound_branches {bs : List Schema} (h : base.IsBare)
    (hprim : base.prim ≠ some Prim.pair.name) (hbs : ∀ b ∈ bs, b.Throughout (IsSound now)) :
    ({ base with oneOf := bs } : Schema).Throughout (IsSound now) :=
  (Schema.throughout_branches h).2
    ⟨⟨Schema.keepsNames_of_nil h.properties h.required, fun hp => absurd hp hprim⟩, hbs⟩

theorem throughout_isDistinct_branches {bs : List Schema} (h : base.IsBare) :
    ({ base with oneOf := bs } : Schema).Throughout Schema.IsDistinct
      ↔ ∀ b ∈ bs, b.Throughout Schema.IsDistinct := by
  have hdistinct : ({ base with oneOf := bs } : Schema).IsDistinct := by
    rw [Schema.IsDistinct]
    show base.required.Nodup
    rw [h.required]
    exact List.nodup_nil
  rw [Schema.throughout_branches h, and_iff_right hdistinct]

/-- An option is described as a choice between none and its value. -/
theorem isRegular_option {i : Info} {inner : Ty} (h : (option i inner).schema now = .ok s)
    (ih : ∀ s, inner.schema now = .ok s → inner.IsRegular now s) :
    (option i inner).IsRegular now s := by
  rw [schema_option] at h
  obtain ⟨props, hprops, h⟩ := bind_eq_ok_iff.1 h
  obtain rfl := pure_eq_ok_iff.1 h
  have hbare := Schema.isBare_ofTy "object" (option i inner)
  obtain ⟨hsome, hdistinct⟩ := regular_of_branch "Some" "some" hprops ih
  obtain ⟨hnone, hnone'⟩ := regular_of_none now
  refine ⟨throughout_isSound_branches hbare (prim_name_ne rfl) ?_, ?_⟩
  · exact List.forall_mem_cons.2 ⟨hnone, List.forall_mem_singleton.2 hsome⟩
  · rw [throughout_isDistinct_branches hbare, List.forall_mem_cons, List.forall_mem_singleton,
      and_iff_right hnone', hdistinct, NamesDiffer]

/-- A choice is described by its branches, each an object with what tells it from the others and
at most one property more. -/
theorem isRegular_or {i : Info} {left right : Ty} (h : (or i left right).schema now = .ok s)
    (ih : ∀ leaf ∈ (or i left right).leaves, ∀ s, leaf.2.schema now = .ok s →
      leaf.2.IsRegular now s) : (or i left right).IsRegular now s := by
  rw [schema_or] at h
  obtain ⟨bs, hbs, h⟩ := bind_eq_ok_iff.1 h
  obtain rfl := pure_eq_ok_iff.1 h
  have hbare := Schema.isBare_ofTy "object" (or i left right)
  -- a branch is regular as its leaf is, but for the key, which must not be the name of the leaf
  have hbranch : ∀ leaf ∈ (or i left right).leaves, ∀ b, branchOf now leaf = .ok b →
      b.Throughout (IsSound now) ∧ (b.Throughout Schema.IsDistinct
        ↔ (branchKey :: properNames [leaf.2]).Nodup ∧ leaf.2.NamesDiffer) := by
    intro leaf hleaf b hb
    obtain ⟨props, hprops, hb⟩ := bind_eq_ok_iff.1 hb
    obtain rfl := pure_eq_ok_iff.1 hb
    exact regular_of_branch _ _ hprops (ih leaf hleaf)
  refine ⟨throughout_isSound_branches hbare (prim_name_ne rfl) fun b hb => ?_, ?_⟩
  · obtain ⟨leaf, hleaf, hb⟩ := exists_of_mem_mapM hbs b hb
    exact (hbranch leaf hleaf b hb).1
  · rw [throughout_isDistinct_branches hbare, NamesDiffer]
    constructor
    · intro hall leaf hleaf
      obtain ⟨b, hmem, hb⟩ := exists_of_mem_of_mapM hbs leaf hleaf
      exact (hbranch leaf hleaf b hb).2.1 (hall b hmem)
    · intro hall b hmem
      obtain ⟨leaf, hleaf, hb⟩ := exists_of_mem_mapM hbs b hmem
      exact (hbranch leaf hleaf b hb).2.2 (hall leaf hleaf)

/-! ### Collections -/

/-- An array is as its items are. -/
theorem regular_of_items (title : Option String) {item : Schema} (h : base.IsBare)
    (hprim : base.prim ≠ some Prim.pair.name) (hitem : item.Throughout (IsSound now)) :
    ({ base with items := some item, itemTitle := title } : Schema).Throughout (IsSound now)
      ∧ (({ base with items := some item, itemTitle := title } : Schema).Throughout
          Schema.IsDistinct ↔ item.Throughout Schema.IsDistinct) := by
  have hdistinct : ({ base with items := some item, itemTitle := title } : Schema).IsDistinct := by
    rw [Schema.IsDistinct]
    show base.required.Nodup
    rw [h.required]
    exact List.nodup_nil
  refine ⟨(Schema.throughout_items h).2 ⟨⟨?_, fun hp => absurd hp hprim⟩, hitem⟩, ?_⟩
  · exact Schema.keepsNames_of_nil h.properties h.required
  · rw [Schema.throughout_items h, and_iff_right hdistinct]

theorem isRegular_items {ty elem : Ty} (hty : ty.HasItems elem) (h : ty.schema now = .ok s)
    (ih : ∀ s, elem.schema now = .ok s → elem.IsRegular now s) : ty.IsRegular now s := by
  rw [schema_items hty] at h
  obtain ⟨item, hitem, h⟩ := bind_eq_ok_iff.1 h
  obtain rfl := pure_eq_ok_iff.1 h
  have hpair : ty.isPair = false := by cases hty <;> rfl
  have hnames : ty.NamesDiffer ↔ elem.NamesDiffer := by cases hty <;> rw [NamesDiffer]
  obtain ⟨hsound, hdistinct⟩ := regular_of_items (some elem.name) (Schema.isBare_ofTy "array" ty)
    (prim_name_ne hpair) (ih item hitem).sound
  exact ⟨hsound, hdistinct.trans ((ih item hitem).distinct.trans hnames.symm)⟩

/-- What is so for the schema of the entries of a map. -/
theorem regular_of_entry {key value : Ty} {ks vs : Schema} (hk : key.IsRegular now ks)
    (hv : value.IsRegular now vs) :
    (schema.entrySchema (key.name, ks) (value.name, vs)).Throughout (IsSound now)
      ∧ ((schema.entrySchema (key.name, ks) (value.name, vs)).Throughout Schema.IsDistinct
        ↔ key.name ≠ value.name ∧ key.NamesDiffer ∧ value.NamesDiffer) := by
  have hbare : ({ kind := some "object" } : Schema).IsBare := ⟨rfl, rfl, rfl, rfl⟩
  refine ⟨throughout_isSound_withProperties hbare nofun ?_, ?_⟩
  · exact List.forall_mem_cons.2 ⟨hk.sound, List.forall_mem_singleton.2 hv.sound⟩
  · rw [schema.entrySchema, Schema.throughout_isDistinct_withProperties hbare,
      List.forall_mem_cons, List.forall_mem_singleton, hk.distinct, hv.distinct]
    exact and_congr_left' (by simp)

/-- A map is described by objects of a key and a value. -/
theorem isRegular_entries {ty key value : Ty} (hty : ty.HasEntries key value)
    (h : ty.schema now = .ok s) (ihk : ∀ s, key.schema now = .ok s → key.IsRegular now s)
    (ihv : ∀ s, value.schema now = .ok s → value.IsRegular now s) : ty.IsRegular now s := by
  rw [schema_entries hty] at h
  obtain ⟨ks, hk, h⟩ := bind_eq_ok_iff.1 h
  obtain ⟨vs, hv, h⟩ := bind_eq_ok_iff.1 h
  obtain rfl := pure_eq_ok_iff.1 h
  have hpair : ty.isPair = false := by cases hty <;> rfl
  have hnames : ty.NamesDiffer ↔ key.name ≠ value.name ∧ key.NamesDiffer ∧ value.NamesDiffer := by
    cases hty <;> rw [NamesDiffer]
  obtain ⟨hentry, hentry'⟩ := regular_of_entry (ihk ks hk) (ihv vs hv)
  obtain ⟨hsound, hdistinct⟩ := regular_of_items (some key.name) (Schema.isBare_ofTy "array" ty)
    (prim_name_ne hpair) hentry
  exact ⟨hsound, hdistinct.trans (hentry'.trans hnames.symm)⟩

/-! ### All types -/

/-- **The schema of a type is sound all through**, and it requires no name twice exactly if the
names that stand side by side in the type differ. -/
theorem isRegular_of_schema {ty : Ty} (h : ty.schema now = .ok s) : ty.IsRegular now s := by
  -- members and leaves may stand any number of levels down, so the induction is on the size
  induction hsize : ty.size using Nat.strongRecOn generalizing ty s with
  | _ size ih =>
    subst hsize
    have hsmaller {c : Ty} (hlt : c.size < ty.size) (s : Schema) (hs : c.schema now = .ok s) :
        c.IsRegular now s := ih _ hlt hs rfl
    cases ty with
    | pair i left right => exact isRegular_pair h fun m hm => hsmaller (size_lt_of_mem_members hm)
    | or i left right =>
      exact isRegular_or h fun leaf hleaf => hsmaller (size_lt_of_mem_leaves hleaf)
    | option i inner => exact isRegular_option h (hsmaller (by simp only [size]; omega))
    | list i elem => exact isRegular_items .list h (hsmaller (HasItems.size_lt .list))
    | set i elem => exact isRegular_items .set h (hsmaller (HasItems.size_lt .set))
    | map i key value =>
      exact isRegular_entries .map h (hsmaller (HasEntries.size_key_lt .map))
        (hsmaller (HasEntries.size_value_lt .map))
    | bigMap i key value =>
      exact isRegular_entries .bigMap h (hsmaller (HasEntries.size_key_lt .bigMap))
        (hsmaller (HasEntries.size_value_lt .bigMap))
    | never | operation | ticket =>
      rw [schema] at h
      cases h
    | unit | bool | contract | lambda | saplingState | saplingTransaction | constant =>
      rw [schema] at h
      · obtain rfl := Except.ok.inj h
        exact isRegular_of_isBare ⟨rfl, rfl, rfl, rfl⟩ (prim_name_ne rfl)
          (by unfold NamesDiffer; trivial)
      all_goals simp
    | scalar i kind => exact isRegular_scalar h

end Ty

end Micheline
