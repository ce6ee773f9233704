/-
Micheline/Proofs/Form/Entered.lean

What is entered in a form for a value (`Ty.form`): a property for each member of a pair that is
not the unit, the branch that an option or a choice takes, a list for a collection, and texts
for literals.

Not every type has such forms for all its values: there must be a schema for it, and names
that stand side by side must differ (`Ty.HasForm`).  And not every value can be entered: an
identifier must be a valid text, and a big map must not be kept elsewhere (`Typed.IsWritten`).
Where both are so for a value they are so for all its parts (`Typed.IsEnterable`).
-/
import Mathlib.Data.List.Nodup
import Micheline.Form.Schema
import Micheline.Proofs.Ty.Collections
import Micheline.Proofs.Ty.Descent
import Micheline.Proofs.Value.Parts

namespace Micheline

/-! ### Types with forms -/

/-- The scalar types whose literals are entered as texts and read from them. -/
def Scalar.formed : List Scalar :=
  [.string, .int, .nat, .mutez, .bytes, .address, .key, .keyHash, .signature, .chainId]

namespace Ty

/-- The names of the types that are not the unit. -/
def properNames (tys : List Ty) : List String :=
  (tys.filter (!·.isUnit)).map Ty.name

/-- The types of which every value that is written in full has a form.  The members of a pair
that are not the unit have different names, and so have the key and the value of a map; nothing
in a branch has the name of the property that tells the branches apart. -/
def HasForm : Ty → Prop
  | .unit _ => True
  | .bool _ => True
  | .scalar _ kind => kind ∈ Scalar.formed
  | .contract _ _ => True
  | .pair i left right =>
    left.HasForm ∧ right.HasForm ∧ (properNames (Ty.pair i left right).members).Nodup
  | .or i left right =>
    left.HasForm ∧ right.HasForm ∧ ∀ leaf ∈ (Ty.or i left right).leaves, leaf.2.name ≠ branchKey
  | .option _ inner => inner.HasForm ∧ inner.name ≠ branchKey
  | .list _ elem => elem.HasForm
  | .set _ elem => elem.HasForm
  | .map _ key value => key.HasForm ∧ value.HasForm ∧ key.name ≠ value.name
  | .bigMap _ key value => key.HasForm ∧ value.HasForm ∧ key.name ≠ value.name
  | _ => False

instance decidableHasForm : (ty : Ty) → Decidable ty.HasForm
  | .unit _ | .bool _ | .contract _ _ => .isTrue trivial
  | .scalar _ kind => inferInstanceAs (Decidable (kind ∈ Scalar.formed))
  | .pair i left right =>
    have := decidableHasForm left
    have := decidableHasForm right
    inferInstanceAs (Decidable (left.HasForm ∧ right.HasForm
      ∧ (properNames (Ty.pair i left right).members).Nodup))
  | .or i left right =>
    have := decidableHasForm left
    have := decidableHasForm right
    inferInstanceAs (Decidable (left.HasForm ∧ right.HasForm
      ∧ ∀ leaf ∈ (Ty.or i left right).leaves, leaf.2.name ≠ branchKey))
  | .option _ inner =>
    have := decidableHasForm inner
    inferInstanceAs (Decidable (inner.HasForm ∧ inner.name ≠ branchKey))
  | .list _ elem | .set _ elem => decidableHasForm elem
  | .map _ key value | .bigMap _ key value =>
    have := decidableHasForm key
    have := decidableHasForm value
    inferInstanceAs (Decidable (key.HasForm ∧ value.HasForm ∧ key.name ≠ value.name))
  | .never _ | .operation _ | .lambda _ _ _ | .ticket _ _ _ | .saplingState _ _
  | .saplingTransaction _ _ _ | .constant _ _ => .isFalse id

end Ty

/-! ### Members and leaves -/

namespace Ty

variable {P : Ty → Prop} {ty : Ty}

/-- What is so for both sides of a pair is so for its members. -/
theorem of_mem_members (hpair : ∀ i left right, P (.pair i left right) → P left ∧ P right) {m : Ty}
    (h : P ty) (hm : m ∈ ty.members) : P m := by
  induction ty with
  | pair i left right ihl ihr =>
    obtain ⟨hleft, hright⟩ := hpair i left right h
    rcases List.mem_append.1 hm with hm | hm
    · split at hm
      next => exact ihl hleft hm
      next => exact List.mem_singleton.1 hm ▸ hleft
    · split at hm
      next => exact ihr hright hm
      next => exact List.mem_singleton.1 hm ▸ hright
  | _ => cases hm

/-- What is so for both sides of a choice is so for its leaves. -/
theorem of_mem_leaves (hor : ∀ i left right, P (.or i left right) → P left ∧ P right)
    {leaf : List Side × Ty} (h : P ty) (hleaf : leaf ∈ ty.leaves) : P leaf.2 := by
  induction ty generalizing leaf with
  | or i left right ihl ihr =>
    obtain ⟨hleft, hright⟩ := hor i left right h
    rcases List.mem_append.1 hleaf with hleaf | hleaf
    · obtain ⟨x, hx, rfl⟩ := List.mem_map.1 hleaf
      split at hx
      next => exact @ihl x hleft hx
      next => exact List.mem_singleton.1 hx ▸ hleft
    · obtain ⟨x, hx, rfl⟩ := List.mem_map.1 hleaf
      split at hx
      next => exact @ihr x hright hx
      next => exact List.mem_singleton.1 hx ▸ hright
  | _ => cases hleaf

theorem hasForm_of_mem_members {m : Ty} (h : ty.HasForm) (hm : m ∈ ty.members) : m.HasForm :=
  of_mem_members (fun _ _ _ h => ⟨h.1, h.2.1⟩) h hm

theorem hasForm_of_mem_leaves {leaf : List Side × Ty} (h : ty.HasForm) (hleaf : leaf ∈ ty.leaves) :
    leaf.2.HasForm :=
  of_mem_leaves (fun _ _ _ h => ⟨h.1, h.2.1⟩) h hleaf

/-- The key of a branch and the name of its payload differ. -/
theorem nodup_branch_names (h : ty.name ≠ branchKey) : (branchKey :: properNames [ty]).Nodup := by
  refine List.nodup_cons.2 ⟨fun hmem => ?_, ?_⟩
  · obtain ⟨m, hm, hname⟩ := List.mem_map.1 hmem
    obtain rfl := List.mem_singleton.1 (List.mem_filter.1 hm).1
    exact h hname
  · exact (List.filter_sublist.map Ty.name).nodup (List.nodup_singleton ty.name)

end Ty

/-! ### What is entered -/

/-- What is entered for a literal: a text. -/
def Literal.form : Literal → Json
  | .int value => .str (Decimal.ofInt value)
  | .string text => .str text
  | .bytes data => .str (Hex.encode data)

/-- The property for a type, which is none for the unit. -/
def Ty.property (ty : Ty) (data : Json) : List (String × Json) :=
  if ty.isUnit then [] else [(ty.name, data)]

/-- What is entered in a form for a value. -/
def Ty.form (ty : Ty) (v : Val) : Json :=
  match ty, v with
  | .unit _, _ => .obj []
  | .bool _, .bool value => .bool value
  | .scalar _ _, .literal l => l.form
  | .contract _ _, .literal l => l.form
  | .pair i left right, v =>
    .obj ((Typed.members (.pair i left right) v).attach.flatMap fun ⟨m, _⟩ =>
      m.ty.property (m.ty.form m.val))
  | .or i left right, v =>
    match _h : Typed.activeLeaf? (.or i left right) v with
    | some (path, leaf) =>
      .obj ((branchKey, .str (pathKey path)) :: leaf.ty.property (leaf.ty.form leaf.val))
    | none => .null
  | .option _ _, .none => .obj [(branchKey, .str "none")]
  | .option _ inner, .some a =>
    .obj ((branchKey, .str "some") :: inner.property (inner.form a))
  | .list _ elem, .items values => .arr (values.map fun v => elem.form v)
  | .set _ elem, .items values => .arr (values.map fun v => elem.form v)
  | .map _ key value, .entries _ pairs =>
    .arr (pairs.map fun p => .obj (key.property (key.form p.1) ++ value.property (value.form p.2)))
  | .bigMap _ key value, .entries _ pairs =>
    .arr (pairs.map fun p => .obj (key.property (key.form p.1) ++ value.property (value.form p.2)))
  | _, _ => .null
termination_by ty.size
decreasing_by
  · exact Typed.size_lt_of_mem_members ‹_›
  · exact Typed.size_lt_of_activeLeaf? _h
  all_goals simp only [Ty.size]; omega

namespace Typed

/-- What is entered in a form for a value with its type. -/
def form (t : Typed) : Json :=
  t.ty.form t.val

/-- The property for a value with its type. -/
def property (t : Typed) : List (String × Json) :=
  t.ty.property t.form

end Typed

namespace Ty

variable {i : Info} {left right key value elem : Ty} {v : Val}

/-- A pair is entered as one object with the properties of its members. -/
theorem form_pair : (pair i left right).form v
    = .obj ((Typed.members (.pair i left right) v).flatMap Typed.property) := by
  have hattach (ms : List Typed) :
      (ms.attach.flatMap fun m => m.1.property) = ms.flatMap Typed.property := by
    rw [← List.flatMap_map, List.attach_map_subtype_val]
  rw [form, ← hattach]
  rfl

/-- A choice is entered as its branch and the property of the active leaf. -/
theorem form_or {path : List Side} {leaf : Typed}
    (h : Typed.activeLeaf? (.or i left right) v = some (path, leaf)) :
    (or i left right).form v = .obj ((branchKey, .str (pathKey path)) :: leaf.property) := by
  rw [form]
  split
  next h' =>
    obtain ⟨rfl, rfl⟩ := Prod.mk.inj (Option.some.inj (h'.symm.trans h))
    rfl
  next h' => cases h'.symm.trans h

/-- What is entered for an entry of a map. -/
def entryProperties (key value : Ty) (p : Val × Val) : List (String × Json) :=
  [Typed.mk key p.1, ⟨value, p.2⟩].flatMap Typed.property

/-- An entry is entered as the properties of its key and its value. -/
theorem entryProperties_eq (key value : Ty) (p : Val × Val) :
    entryProperties key value p
      = key.property (key.form p.1) ++ value.property (value.form p.2) := by
  rw [entryProperties, List.flatMap_cons, List.flatMap_singleton]
  rfl

theorem form_items {ty : Ty} (hty : ty.HasItems elem) (values : List Val) :
    ty.form (.items values) = .arr (values.map elem.form) := by
  cases hty <;> rw [form]

theorem form_entries {ty : Ty} (hty : ty.HasEntries key value) (pointer : Option Int)
    (pairs : List (Val × Val)) :
    ty.form (.entries pointer pairs) = .arr ((pairs.map (entryProperties key value)).map .obj) := by
  have hentries : (pairs.map fun p =>
      Json.obj (key.property (key.form p.1) ++ value.property (value.form p.2)))
        = (pairs.map (entryProperties key value)).map .obj := by
    rw [List.map_map]
    exact List.map_congr_left fun p _ => congrArg Json.obj (entryProperties_eq key value p).symm
  cases hty <;> rw [form, hentries]

end Ty

/-! ### Values that can be entered -/

/-- An identifier is a valid text. -/
def Literal.IsWritten : Content → Literal → Prop
  | .identifier role, l => ∃ text data, l = .string text ∧ role.toBytes text = .ok data
  | _, _ => True

namespace Typed

/-- An identifier is a valid text, and a big map is not kept elsewhere. -/
def IsWritten : Typed → Prop
  | ⟨.scalar _ kind, .literal l⟩ => l.IsWritten kind.content
  | ⟨.contract _ _, .literal l⟩ => l.IsWritten (.identifier .address)
  | ⟨.bigMap _ _ _, .entries pointer _⟩ => pointer = none
  | _ => True

/-- A value of a type with forms that is written in full, with all its parts. -/
structure IsEnterable (t : Typed) : Prop where
  hasForm : t.ty.HasForm
  held : t.ty.Holds true t.val
  written : ∀ p : Typed, p.IsPart t → p.IsWritten

variable {t p : Typed}

/-- The parts of what has a form have forms. -/
theorem hasForm_of_mem_parts (h : t.ty.HasForm) (hp : p ∈ t.parts) : p.ty.HasForm := by
  have hty := ty_mem_partTypes hp
  generalize t.ty = ty at h hty
  cases ty with
  | pair i a b | or i a b | map i a b | bigMap i a b =>
    obtain ⟨ha, hb, -⟩ := h
    rcases List.mem_pair.1 hty with hty | hty
    · exact hty ▸ ha
    · exact hty ▸ hb
  | option i inner => exact List.mem_singleton.1 hty ▸ h.1
  | list i elem | set i elem => exact List.mem_singleton.1 hty ▸ h
  | ticket i content paired => cases h
  | _ => cases hty

theorem hasForm_of_isPart (h : t.ty.HasForm) (hp : p.IsPart t) : p.ty.HasForm := by
  induction hp with
  | refl => exact h
  | tail _ hmem ih => exact hasForm_of_mem_parts ih hmem

/-- **The parts of a value that can be entered can be entered.** -/
theorem IsEnterable.of_isPart (h : t.IsEnterable) (hp : p.IsPart t) : p.IsEnterable :=
  ⟨hasForm_of_isPart h.hasForm hp, holds_of_isPart h.held hp, fun q hq => h.written q (hp.trans hq)⟩

section Collections

variable {ty elem key value : Ty} {v : Val} {pointer : Option Int} {pairs : List (Val × Val)}
  {q : Val × Val}

theorem isPart_item (hty : ty.HasItems elem) {values : List Val} (hv : v ∈ values) :
    IsPart ⟨elem, v⟩ ⟨ty, .items values⟩ := by
  cases hty <;> exact .single (List.mem_map_of_mem hv)

theorem isPart_key (hty : ty.HasEntries key value) (hq : q ∈ pairs) :
    IsPart ⟨key, q.1⟩ ⟨ty, .entries pointer pairs⟩ := by
  cases hty <;> exact .single (List.mem_flatMap.2 ⟨q, hq, List.mem_cons_self⟩)

theorem isPart_value (hty : ty.HasEntries key value) (hq : q ∈ pairs) :
    IsPart ⟨value, q.2⟩ ⟨ty, .entries pointer pairs⟩ := by
  cases hty <;>
    exact .single (List.mem_flatMap.2 ⟨q, hq, List.mem_cons_of_mem _ List.mem_cons_self⟩)

/-- A list or a set that can be entered has items that can be entered. -/
theorem IsEnterable.exists_items (hty : ty.HasItems elem) (h : IsEnterable ⟨ty, v⟩) :
    ∃ values, v = .items values ∧ ∀ x ∈ values, IsEnterable ⟨elem, x⟩ := by
  obtain ⟨values, rfl⟩ : ∃ values, v = .items values := by
    cases hty <;> cases h.held <;> exact ⟨_, rfl⟩
  exact ⟨values, rfl, fun x hx => h.of_isPart (isPart_item hty hx)⟩

/-- A map or a big map that can be entered has its entries with it, and they can be entered. -/
theorem IsEnterable.exists_entries (hty : ty.HasEntries key value) (h : IsEnterable ⟨ty, v⟩) :
    ∃ pairs, v = .entries none pairs
      ∧ ∀ q ∈ pairs, IsEnterable ⟨key, q.1⟩ ∧ IsEnterable ⟨value, q.2⟩ := by
  obtain ⟨pairs, rfl⟩ : ∃ pairs, v = .entries none pairs := by
    cases hty <;> cases h.held
    case bigMap.pointer | bigMap.loaded => cases h.written _ .refl
    all_goals exact ⟨_, rfl⟩
  exact ⟨pairs, rfl, fun q hq =>
    ⟨h.of_isPart (isPart_key hty hq), h.of_isPart (isPart_value hty hq)⟩⟩

end Collections

/-- The members of a pair are parts of it. -/
theorem isPart_of_mem_members {ty : Ty} {v : Val} (h : p ∈ members ty v) : p.IsPart ⟨ty, v⟩ := by
  induction ty generalizing v with
  | pair i left right ihl ihr =>
    cases v with
    | pair a b comb =>
      have hleft : ⟨left, a⟩ ∈ parts ⟨.pair i left right, .pair a b comb⟩ := List.mem_cons_self
      have hright : ⟨right, b⟩ ∈ parts ⟨.pair i left right, .pair a b comb⟩ :=
        List.mem_cons_of_mem _ List.mem_cons_self
      rw [members] at h
      rcases List.mem_append.1 h with h | h
      · split at h
        next => exact .head hleft (ihl h)
        next =>
          obtain rfl := List.mem_singleton.1 h
          exact .single hleft
      · split at h
        next => exact .head hright (ihr h)
        next =>
          obtain rfl := List.mem_singleton.1 h
          exact .single hright
    | _ => cases h
  | _ => cases v <;> cases h

/-- The leaf that a choice takes is a part of it. -/
theorem isPart_of_activeLeaf? {ty : Ty} {v : Val} {path : List Side}
    (h : activeLeaf? ty v = some (path, p)) : p.IsPart ⟨ty, v⟩ := by
  rw [Ty.activeLeaf?_eq_some_iff] at h
  induction h with
  | leaf _ => exact .single (mem_parts_val _)
  | inner _ _ ih => exact .head (mem_parts_val _) ih

end Typed

end Micheline
