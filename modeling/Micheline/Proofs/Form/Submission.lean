/-
Micheline/Proofs/Form/Submission.lean

Submissions of forms.  What is entered for a value is read as the expression of the value in
readable form (`Typed.IsEnterable.isRead`).  The members of a pair are read from the object of
the pair around them, at any depth; the leaf of a choice is read at the end of its path.
-/
import Micheline.Form.Submission
import Micheline.Proofs.Calendar.Timestamp
import Micheline.Proofs.Form.Entered
import Micheline.Proofs.Json.Members
import Micheline.Proofs.Text.Decimal
import Micheline.Proofs.Text.Hex
import Micheline.Proofs.Ty.Descent
import Micheline.Proofs.Value.Preserve

namespace Micheline

open Submission

/-! ### Literals -/

theorem integer_ofInt (ty : Ty) (value : Int) :
    integer ty (.str (Decimal.ofInt value)) = .ok value := by
  simp only [integer, Decimal.trimBlank_ofInt, Decimal.toInt?_ofInt]

theorem bytes_encode (ty : Ty) (data : Bytes) :
    Submission.bytes ty (.str (Hex.encode data)) = .ok data := by
  refine bind_eq_ok_iff.2 ⟨Hex.encode data, rfl, ?_⟩
  rw [Hex.dropMarker_encode, Hex.decode_encode]
  rfl

/-- A text that has bytes passes as an identifier. -/
theorem checked_of_toBytes {ty : Ty} {role : Identifier.Role} {text : String} {data : Bytes}
    (h : role.toBytes text = .ok data) : checked ty (.identifier role) (.str text) = .ok text := by
  refine bind_eq_ok_iff.2 ⟨text, rfl, ?_⟩
  rw [Format.check, Format.fault?, h]
  rfl

/-- A text that stands for a point in time passes as one. -/
theorem checked_of_parse {ty : Ty} {text : String} {seconds : Int}
    (h : Calendar.Timestamp.parse text = .ok seconds) :
    checked ty .timestamp (.str text) = .ok text := by
  refine bind_eq_ok_iff.2 ⟨text, rfl, ?_⟩
  rw [Format.check, Format.fault?, Calendar.Timestamp.validate_eq_map_parse, h]
  rfl

/-- The contents of literals that are read from the texts they are entered as. -/
def Content.IsFormed (content : Content) : Prop :=
  content ≠ .time ∧ content ≠ .blob ∧ content ≠ .field

theorem isFormed_identifier (role : Identifier.Role) : (Content.identifier role).IsFormed := by
  simp [Content.IsFormed]

theorem isFormed_of_mem_formed {kind : Scalar} (h : kind ∈ Scalar.formed) :
    kind.content.IsFormed := by
  unfold Content.IsFormed
  revert kind
  decide

/-- A literal that can be entered is its own readable form. -/
theorem readable_of_isWritten {content : Content} {l : Literal} (hformed : content.IsFormed)
    (hwritten : l.IsWritten content) : l.readable content = .ok l := by
  cases content with
  | identifier role =>
    obtain ⟨text, data, rfl, -⟩ := hwritten
    rfl
  -- These three are read by functions of their own.
  | time => exact absurd rfl hformed.1
  | _ => cases l <;> rfl

/-- **What is entered for a literal is read as the literal.** -/
theorem literal_form {ty : Ty} {content : Content} {l : Literal} (hformed : content.IsFormed)
    (hwritten : l.IsWritten content) (hfits : l.Fits content) :
    literal ty content l.form = .ok l.node := by
  cases content with
  | integer =>
    cases l with
    | int value => exact bind_eq_ok_iff.2 ⟨value, integer_ofInt ty value, rfl⟩
    | _ => cases hfits.isOf
  | natural =>
    cases l with
    | int value =>
      have hnat : ¬value < 0 := Int.not_lt.2 (hfits.natural rfl value rfl)
      refine bind_eq_ok_iff.2 ⟨value, integer_ofInt ty value, ?_⟩
      rw [if_neg hnat]
      rfl
    | _ => cases hfits.isOf
  | text =>
    cases l with
    | string text => rfl
    | _ => cases hfits.isOf
  | bytes =>
    cases l with
    | bytes data => exact bind_eq_ok_iff.2 ⟨data, bytes_encode ty data, rfl⟩
    | _ => cases hfits.isOf
  | identifier role =>
    -- Only here the literal's text matters: it must have bytes, and `IsWritten` says that it has.
    obtain ⟨text, data, rfl, hdata⟩ := hwritten
    exact bind_eq_ok_iff.2 ⟨text, checked_of_toBytes hdata, rfl⟩
  | time => exact absurd rfl hformed.1
  | blob => exact absurd rfl hformed.2.1
  | field => exact absurd rfl hformed.2.2

namespace Typed

/-- The data is read as the expression of the value in readable form. -/
def IsRead (t : Typed) (data : Json) : Prop :=
  ∃ n, t.ty.submit data = .ok n ∧ t.project .readable = .ok n

/-- The member of an object is read as the expression of the value in readable form. -/
def IsReadMember (t : Typed) (ms : List (String × Json)) : Prop :=
  ∃ n, member t.ty t.ty.submit ms = .ok n ∧ t.project .readable = .ok n

variable {t m : Typed} {ms : List (String × Json)}

/-- A part is read if its property is found; a unit needs none. -/
theorem isReadMember_of_find? (hread : m.IsRead m.form)
    (hfind : m.ty.isUnit = false → Members.find? m.ty.name ms = some m.form) :
    m.IsReadMember ms := by
  obtain ⟨n, hn, hproject⟩ := hread
  refine ⟨n, ?_, hproject⟩
  rw [member]
  split
  next hunit =>
    obtain ⟨ty, v⟩ := m
    cases ty with
    | unit i =>
      rw [Ty.submit] at hn
      exact hn
    | _ => cases hunit
  next hunit =>
    rw [hfind (Bool.eq_false_iff.2 hunit)]
    exact hn

/-! ### Pairs -/

/-- The expression for a part of a pair: an inner pair is read from the object of the whole, any
other part is a member of it. -/
def submitPart (c : Ty) (ms : List (String × Json)) : Except Error Node :=
  if c.isInnerPair then c.submit (.obj ms) else member c c.submit ms

theorem submit_pair {i : Info} {left right : Ty} :
    (Ty.pair i left right).submit (.obj ms) = do
      let first ← submitPart left ms
      let second ← submitPart right ms
      return .app "Pair" [first, second] := by
  rw [Ty.submit, submitPart, submitPart]
  cases left.isInnerPair <;> cases right.isInnerPair <;> rfl

/-- A part of a pair is read: a pair inside is read from the same object, anything else from its
property. -/
theorem exists_submitPart {c : Ty} {x : Val}
    (hinner : c.isPair = true → (∀ m ∈ members c x, m.IsRead m.form) →
      (∀ m ∈ members c x, m.ty.isUnit = false → Members.find? m.ty.name ms = some m.form) →
      IsRead ⟨c, x⟩ (.obj ms))
    (hread : ∀ m ∈ (if c.isInnerPair then members c x else [⟨c, x⟩]), m.IsRead m.form)
    (hfind : ∀ m ∈ (if c.isInnerPair then members c x else [⟨c, x⟩]), m.ty.isUnit = false →
      Members.find? m.ty.name ms = some m.form) :
    ∃ n, submitPart c ms = .ok n ∧ c.project .readable x = .ok n := by
  rw [submitPart]
  by_cases h : c.isInnerPair = true
  · have hpair : c.isPair = true := by
      cases c with
      | pair i left right => rfl
      | _ => cases h
    rw [if_pos h] at hread hfind ⊢
    exact hinner hpair hread hfind
  · rw [if_neg h] at hread hfind ⊢
    exact isReadMember_of_find? (hread _ List.mem_cons_self) (hfind _ List.mem_cons_self)

/-- **A pair is read from an object that has all its members**, those of inner pairs too. -/
theorem isRead_of_members {ty : Ty} {v : Val} (hpair : ty.isPair = true) (hv : ty.Holds true v)
    (hread : ∀ m ∈ members ty v, m.IsRead m.form)
    (hfind : ∀ m ∈ members ty v, m.ty.isUnit = false →
      Members.find? m.ty.name ms = some m.form) : IsRead ⟨ty, v⟩ (.obj ms) := by
  induction ty generalizing v with
  | pair i left right ihl ihr =>
    cases hv with
    | @pair _ _ _ a b comb ha hb _ =>
      rw [members] at hread hfind
      obtain ⟨hreadl, hreadr⟩ := List.forall_mem_append.1 hread
      obtain ⟨hfindl, hfindr⟩ := List.forall_mem_append.1 hfind
      obtain ⟨first, hfirst, ha'⟩ := exists_submitPart (fun h => ihl h ha) hreadl hfindl
      obtain ⟨second, hsecond, hb'⟩ := exists_submitPart (fun h => ihr h hb) hreadr hfindr
      refine ⟨.app "Pair" [first, second], ?_, ?_⟩
      · rw [submit_pair]
        exact bind_eq_ok_iff.2 ⟨first, hfirst, bind_eq_ok_iff.2 ⟨second, hsecond, rfl⟩⟩
      · exact bind_eq_ok_iff.2 ⟨first, ha', bind_eq_ok_iff.2 ⟨second, hb', rfl⟩⟩
  | _ => cases hpair

/-! ### Choices -/

/-- A side is written around what it holds. -/
theorem project_val {i : Info} {left right : Ty} {side : Side} {a : Val} {form : ValueForm} :
    (Ty.or i left right).project form (side.val a)
      = ((side.pick left right).project form a).map (wrap [side]) := by
  have happ (name : String) (x : Except Error Node) :
      (do return Node.app name [← x]) = x.map fun n => Node.app name [n] := by
    cases x <;> rfl
  cases side with
  | left => exact happ "Left" _
  | right => exact happ "Right" _

/-- **A choice is written as its leaf, at the end of the path**, in any form and also where it
is not written at all. -/
theorem project_of_activeLeaf? {ty : Ty} {v : Val} {path : List Side} {leaf : Typed}
    (form : ValueForm) (h : activeLeaf? ty v = some (path, leaf)) :
    ty.project form v = (leaf.project form).map (wrap path) := by
  rw [Ty.activeLeaf?_eq_some_iff] at h
  induction h with
  | leaf _ => exact project_val
  | @inner i left right a rest leaf side _ _ ih =>
    rw [project_val, ih]
    cases leaf.project form <;> rfl

/-- Different leaves have different keys. -/
theorem pathKey_injective : Function.Injective pathKey := by
  intro path path' h
  refine List.map_injective_iff.2 ?_ (String.ofList_injective h)
  rintro (_ | _) (_ | _) he <;> first | rfl | cases he

/-- A leaf is found by the key of its branch. -/
theorem find?_leaves {ty leaf : Ty} {path : List Side} (h : (path, leaf) ∈ ty.leaves) :
    ty.leaves.find? (fun l => pathKey l.1 == pathKey path) = some (path, leaf) := by
  rcases hfind : ty.leaves.find? (fun l => pathKey l.1 == pathKey path) with - | found
  · exact absurd (beq_self_eq_true _) (List.find?_eq_none.1 hfind _ h)
  · have hfound := List.find?_some hfind
    have hkey : found.1 = path := pathKey_injective (eq_of_beq hfound)
    exact hfind.trans (congrArg some
      (List.inj_on_of_nodup_map ty.nodup_leaves (List.mem_of_find?_eq_some hfind) h hkey))

/-- The leaf of a choice is read from an object that names the branch and has the leaf. -/
theorem submit_or_of_leaf {i : Info} {left right leaf : Ty} {path : List Side} {n : Node}
    (hleaf : (path, leaf) ∈ (Ty.or i left right).leaves)
    (hbranch : Members.find? branchKey ms = some (.str (pathKey path)))
    (hn : member leaf leaf.submit ms = .ok n) :
    (Ty.or i left right).submit (.obj ms) = .ok (wrap path n) := by
  have hkey : branch (.or i left right) ms = .ok (pathKey path) := by
    rw [branch, hbranch]
    rfl
  rw [Ty.submit]
  refine bind_eq_ok_iff.2 ⟨ms, rfl, bind_eq_ok_iff.2 ⟨pathKey path, hkey, ?_⟩⟩
  split
  next found hfound =>
    obtain rfl : found = (path, leaf) :=
      Option.some.inj (hfound.symm.trans (find?_leaves hleaf))
    exact bind_eq_ok_iff.2 ⟨n, hn, rfl⟩
  next hfound => cases hfound.symm.trans (find?_leaves hleaf)

/-- **A choice is read from an object that names the branch and has its leaf.** -/
theorem isRead_of_activeLeaf? {i : Info} {left right : Ty} {v : Val} {path : List Side}
    {leaf : Typed} (h : activeLeaf? (.or i left right) v = some (path, leaf))
    (hbranch : Members.find? branchKey ms = some (.str (pathKey path)))
    (hleaf : leaf.IsReadMember ms) : IsRead ⟨.or i left right, v⟩ (.obj ms) := by
  obtain ⟨n, hn, hproject⟩ := hleaf
  exact ⟨wrap path n, submit_or_of_leaf (Ty.mem_leaves_of_activeLeaf? h) hbranch hn,
    (project_of_activeLeaf? .readable h).trans (by rw [hproject]; rfl)⟩

/-! ### Properties -/

/-- A property is found by its name where no other one has it. -/
theorem find?_property (hunit : m.ty.isUnit = false) (hnodup : (ms.map (·.1)).Nodup)
    (hsub : m.property ⊆ ms) : Members.find? m.ty.name ms = some m.form := by
  refine Members.find?_of_mem hnodup (hsub ?_)
  rw [property, Ty.property, hunit]
  exact List.mem_singleton_self _

/-- The properties of several values are called as their types are. -/
theorem map_fst_property (ts : List Typed) :
    (ts.flatMap property).map (·.1) = Ty.properNames (ts.map (·.ty)) := by
  induction ts with
  | nil => rfl
  | cons t ts ih =>
    rw [List.flatMap_cons, List.map_append, ih, property, Ty.property, Ty.properNames,
      Ty.properNames, List.map_cons, List.filter_cons]
    cases t.ty.isUnit <;> rfl

/-- The values of an object are read if they are read from their properties. -/
theorem isReadMember_of_properties {ts : List Typed} (hm : m ∈ ts)
    (hnodup : (Ty.properNames (ts.map (·.ty))).Nodup) (hread : m.IsRead m.form) :
    m.IsReadMember (ts.flatMap property) := by
  refine isReadMember_of_find? hread fun hunit => find?_property hunit ?_ ?_
  · rwa [map_fst_property]
  · exact fun p hp => List.mem_flatMap.2 ⟨m, hm, hp⟩

/-- The payload of a branch is read next to the key of the branch. -/
theorem isReadMember_of_branch (key : String) (hname : m.ty.name ≠ branchKey)
    (hread : m.IsRead m.form) : m.IsReadMember ((branchKey, .str key) :: m.property) := by
  refine isReadMember_of_find? hread fun hunit => ?_
  rw [Members.find?, if_neg (Ne.symm hname), property, Ty.property, hunit]
  exact if_pos rfl

/-! ### Collections -/

theorem submit_items {ty elem : Ty} (hty : ty.HasItems elem) (data : Json) :
    ty.submit data = (do
      let items ← array ty data
      return .seq (← items.mapM fun item => elem.submit item)) := by
  cases hty <;> rw [Ty.submit]

/-- The items of a list or a set are read one by one. -/
theorem isRead_items {ty elem : Ty} {values : List Val} (hty : ty.HasItems elem)
    (h : ∀ v ∈ values, IsRead ⟨elem, v⟩ (elem.form v)) :
    IsRead ⟨ty, .items values⟩ (form ⟨ty, .items values⟩) := by
  obtain ⟨ns, hns, hproject⟩ : ∃ ns, (values.map elem.form).mapM elem.submit = .ok ns
      ∧ values.mapM (elem.project .readable) = .ok ns :=
    exists_mapM_map h
  refine ⟨.seq ns, ?_, ?_⟩
  · rw [form, Ty.form_items hty, submit_items hty]
    exact bind_eq_ok_iff.2 ⟨_, rfl, bind_eq_ok_iff.2 ⟨ns, hns, rfl⟩⟩
  · rw [project, Ty.project_items hty]
    exact bind_eq_ok_iff.2 ⟨ns, hproject, rfl⟩

section Entries

variable {key value : Ty} {pairs : List (Val × Val)}

/-- The expression for an entry of a map. -/
def submitEntry (ty key value : Ty) (item : Json) : Except Error Node := do
  let members ← object ty item
  let k ← member key key.submit members
  let v ← member value value.submit members
  return .app "Elt" [k, v]

theorem submit_entries {ty : Ty} (hty : ty.HasEntries key value) (data : Json) :
    ty.submit data = (do
      let items ← array ty data
      return .seq (← items.mapM (submitEntry ty key value))) := by
  cases hty <;> rw [Ty.submit] <;> rfl

theorem nodup_properNames_pair (h : key.name ≠ value.name) :
    (Ty.properNames [key, value]).Nodup := by
  have hsub : List.Sublist (Ty.properNames [key, value]) [key.name, value.name] :=
    List.filter_sublist.map Ty.name
  exact hsub.nodup (by simpa using h)

/-- The entries of a map are read one by one. -/
theorem exists_submit_entries (ty : Ty) (hne : key.name ≠ value.name)
    (hk : ∀ p ∈ pairs, IsRead ⟨key, p.1⟩ (key.form p.1))
    (hv : ∀ p ∈ pairs, IsRead ⟨value, p.2⟩ (value.form p.2)) :
    ∃ ns, ((pairs.map (Ty.entryProperties key value)).map Json.obj).mapM
        (submitEntry ty key value) = .ok ns
      ∧ pairs.mapM (Ty.project.projectEntry (key.project .readable) (value.project .readable))
        = .ok ns := by
  rw [List.map_map]
  refine exists_mapM_map fun p hp => ?_
  have hnodup : (Ty.properNames ([Typed.mk key p.1, ⟨value, p.2⟩].map (·.ty))).Nodup :=
    nodup_properNames_pair hne
  obtain ⟨k, hk, hk'⟩ := isReadMember_of_properties List.mem_cons_self hnodup (hk p hp)
  obtain ⟨v, hv, hv'⟩ := isReadMember_of_properties
    (List.mem_cons_of_mem _ List.mem_cons_self) hnodup (hv p hp)
  refine ⟨.app "Elt" [k, v], ?_, ?_⟩
  · exact bind_eq_ok_iff.2 ⟨_, rfl, bind_eq_ok_iff.2 ⟨k, hk, bind_eq_ok_iff.2 ⟨v, hv, rfl⟩⟩⟩
  · exact bind_eq_ok_iff.2 ⟨k, hk', bind_eq_ok_iff.2 ⟨v, hv', rfl⟩⟩

/-- A map is read if its keys and values are. -/
theorem isRead_entries {ty : Ty} (hty : ty.HasEntries key value) (hne : key.name ≠ value.name)
    (hk : ∀ p ∈ pairs, IsRead ⟨key, p.1⟩ (key.form p.1))
    (hv : ∀ p ∈ pairs, IsRead ⟨value, p.2⟩ (value.form p.2)) :
    IsRead ⟨ty, .entries none pairs⟩ (form ⟨ty, .entries none pairs⟩) := by
  obtain ⟨ns, hns, hproject⟩ := exists_submit_entries ty hne hk hv
  refine ⟨.seq ns, ?_, ?_⟩
  · rw [form, Ty.form_entries hty, submit_entries hty]
    exact bind_eq_ok_iff.2 ⟨_, rfl, bind_eq_ok_iff.2 ⟨ns, hns, rfl⟩⟩
  · rw [project, Ty.project_entries hty (.inl rfl)]
    exact bind_eq_ok_iff.2 ⟨ns, hproject, rfl⟩

end Entries

/-! ### Values -/

/-- A pair is read if its members are. -/
theorem isRead_pair {i : Info} {left right : Ty} {v : Val}
    (hform : (Ty.pair i left right).HasForm) (hheld : (Ty.pair i left right).Holds true v)
    (hread : ∀ m ∈ members (.pair i left right) v, m.IsRead m.form) :
    IsRead ⟨.pair i left right, v⟩ (form ⟨.pair i left right, v⟩) := by
  have hnodup : (((members (.pair i left right) v).flatMap property).map (·.1)).Nodup := by
    rw [map_fst_property, Ty.map_ty_members hheld]
    exact hform.2.2
  rw [form, Ty.form_pair]
  refine isRead_of_members rfl hheld hread fun m hm hunit => ?_
  exact find?_property hunit hnodup fun p hp => List.mem_flatMap.2 ⟨m, hm, hp⟩

/-- A choice is read if its leaf is. -/
theorem isRead_choice {i : Info} {left right : Ty} {v : Val}
    (hform : (Ty.or i left right).HasForm) (hheld : (Ty.or i left right).Holds true v)
    (hread : ∀ {leaf : Typed}, leaf.IsPart ⟨.or i left right, v⟩ →
      leaf.ty.size < (Ty.or i left right).size → leaf.IsRead leaf.form) :
    IsRead ⟨.or i left right, v⟩ (form ⟨.or i left right, v⟩) := by
  obtain ⟨path, leaf, hleaf⟩ := Ty.exists_activeLeaf? hheld
  have hname : leaf.ty.name ≠ branchKey := hform.2.2 _ (Ty.mem_leaves_of_activeLeaf? hleaf)
  have hmember := isReadMember_of_branch (pathKey path) hname
    (hread (isPart_of_activeLeaf? hleaf) (size_lt_of_activeLeaf? hleaf))
  rw [form, Ty.form_or hleaf]
  exact isRead_of_activeLeaf? hleaf (if_pos rfl) hmember

/-- An option is read if what is in it is. -/
theorem isRead_some {i : Info} {inner : Ty} {a : Val} (hname : inner.name ≠ branchKey)
    (hread : IsRead ⟨inner, a⟩ (inner.form a)) :
    IsRead ⟨.option i inner, .some a⟩ (form ⟨.option i inner, .some a⟩) := by
  obtain ⟨n, hn, hproject⟩ := isReadMember_of_branch "some" hname hread
  refine ⟨.app "Some" [n], ?_, bind_eq_ok_iff.2 ⟨n, hproject, rfl⟩⟩
  rw [form, Ty.form, Ty.submit]
  exact bind_eq_ok_iff.2 ⟨_, rfl, bind_eq_ok_iff.2 ⟨"some", rfl, bind_eq_ok_iff.2 ⟨n, hn, rfl⟩⟩⟩

/-- **What is entered for a value is read as the value in readable form.** -/
theorem IsEnterable.isRead (h : t.IsEnterable) : t.IsRead t.form := by
  induction hsize : t.ty.size using Nat.strong_induction_on generalizing t with
  | _ size ih =>
    subst hsize
    have hpart {p : Typed} (hp : p.IsPart t) (hlt : p.ty.size < t.ty.size) : p.IsRead p.form :=
      ih _ hlt (h.of_isPart hp) rfl
    obtain ⟨ty, v⟩ := t
    obtain ⟨hform, hheld, hwritten⟩ := h
    have hhere := hwritten _ .refl
    cases hheld with
    | unit =>
      refine ⟨_, ?_, rfl⟩
      rw [Ty.submit]
    | @bool i b =>
      cases b
      all_goals
        refine ⟨_, ?_, rfl⟩
        rw [form, Ty.form, Ty.submit]
    | @scalar i kind l hl =>
      have hformed := isFormed_of_mem_formed hform
      refine ⟨l.node, ?_, bind_eq_ok_iff.2 ⟨l, readable_of_isWritten hformed hhere, rfl⟩⟩
      rw [form, Ty.form, Ty.submit]
      exact literal_form hformed hhere hl
    | @contract i param l hl =>
      have hformed := isFormed_identifier .address
      refine ⟨l.node, ?_, bind_eq_ok_iff.2 ⟨l, readable_of_isWritten hformed hhere, rfl⟩⟩
      rw [form, Ty.form, Ty.submit]
      exact literal_form hformed hhere hl
    | pair ha hb hcomb =>
      exact isRead_pair hform (.pair ha hb hcomb) fun m hm =>
        hpart (isPart_of_mem_members hm) (size_lt_of_mem_members hm)
    | left ha => exact isRead_choice hform (.left ha) fun hm hlt => hpart hm hlt
    | right hb => exact isRead_choice hform (.right hb) fun hm hlt => hpart hm hlt
    | none =>
      refine ⟨_, ?_, rfl⟩
      rw [form, Ty.form, Ty.submit]
      rfl
    | some ha =>
      exact isRead_some hform.2
        (hpart (.single List.mem_cons_self) (by simp only [Ty.size]; omega))
    | list hvalues =>
      exact isRead_items .list fun v hv =>
        hpart (isPart_item .list hv) (Ty.HasItems.size_lt .list)
    | set hvalues _ =>
      exact isRead_items .set fun v hv => hpart (isPart_item .set hv) (Ty.HasItems.size_lt .set)
    | map _ _ _ =>
      exact isRead_entries .map hform.2.2
        (fun p hp => hpart (isPart_key .map hp) (Ty.HasEntries.size_key_lt .map))
        (fun p hp => hpart (isPart_value .map hp) (Ty.HasEntries.size_value_lt .map))
    | bigMap _ _ _ =>
      exact isRead_entries .bigMap hform.2.2
        (fun p hp => hpart (isPart_key .bigMap hp) (Ty.HasEntries.size_key_lt .bigMap))
        (fun p hp => hpart (isPart_value .bigMap hp) (Ty.HasEntries.size_value_lt .bigMap))
    -- contents that are kept elsewhere are not written in full
    | pointer _ | loaded _ _ _ _ _ => cases hhere
    | _ => cases hform

end Typed

end Micheline
