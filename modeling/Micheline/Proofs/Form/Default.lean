/-
Micheline/Proofs/Form/Default.lean

What a form is filled with at first.  It is made of the schema, which does not know the type,
and it is read by the type, which does not know the schema; both agree on every type that has a
default (`Ty.HasDefault`).  The value is the structural default (`Ty.defaultNode`): zero, no
characters, no bytes, the moment at which the schema was made, nothing, no items, the defaults
of the two sides of a pair, and the first leaf of a choice.

Names matter only along the way to the default: the members of a pair that are not the unit
need different names, and the first leaf of a choice another one than the key of its branch.

Main result: the default submission of a tree settles (`Tree.submit_default`).
-/
import Micheline.Proofs.Calendar.Timestamp
import Micheline.Proofs.Form.Object
import Micheline.Proofs.Form.Submission
import Micheline.Proofs.Tree.Preserve

namespace Micheline

open Calendar Submission

/-! ### Defaults of types -/

/-- The scalar types with a literal that is entered at first. -/
def Scalar.defaulted : List Scalar :=
  [.string, .int, .nat, .mutez, .timestamp, .bytes, .blsField, .blsG1, .blsG2, .chest, .chestKey]

/-- The literal that is entered at first: the moment, zero, no characters or no bytes. -/
def Content.default (moment : String) : Content → Literal
  | .integer => .int 0
  | .natural => .int 0
  | .text => .string ""
  | .time => .string moment
  | _ => .bytes []

namespace Ty

/-- The types with a value that is entered at first.  The members of a pair that are not the
unit have different names, and the first leaf of a choice does not have the name of the
property that tells the branches apart. -/
def HasDefault : Ty → Prop
  | .unit _ => True
  | .bool _ => True
  | .scalar _ kind => kind ∈ Scalar.defaulted
  | .pair i left right =>
    left.HasDefault ∧ right.HasDefault ∧ (properNames (Ty.pair i left right).members).Nodup
  | .or _ left _ => left.HasDefault ∧ (left.isInnerOr = false → left.name ≠ branchKey)
  | .option _ _ => True
  | .list _ _ => True
  | .set _ _ => True
  | .map _ _ _ => True
  | .bigMap _ _ _ => True
  | _ => False

instance decidableHasDefault : (ty : Ty) → Decidable ty.HasDefault
  | .unit _ | .bool _ | .option _ _ | .list _ _ | .set _ _ | .map _ _ _ | .bigMap _ _ _ =>
    .isTrue trivial
  | .scalar _ kind => inferInstanceAs (Decidable (kind ∈ Scalar.defaulted))
  | .pair i left right =>
    have := decidableHasDefault left
    have := decidableHasDefault right
    inferInstanceAs (Decidable (left.HasDefault ∧ right.HasDefault
      ∧ (properNames (Ty.pair i left right).members).Nodup))
  | .or _ left _ =>
    have := decidableHasDefault left
    inferInstanceAs (Decidable (left.HasDefault
      ∧ (left.isInnerOr = false → left.name ≠ branchKey)))
  | .never _ | .operation _ | .contract _ _ | .lambda _ _ _ | .ticket _ _ _ | .saplingState _ _
  | .saplingTransaction _ _ _ | .constant _ _ => .isFalse id

/-- The expression of the value that is entered at first. -/
def defaultNode (moment : String) : Ty → Node
  | .unit _ => .app "Unit" []
  | .bool _ => .app "False" []
  | .scalar _ kind => (kind.content.default moment).node
  | .pair _ left right => .app "Pair" [left.defaultNode moment, right.defaultNode moment]
  | .or _ left _ => .app "Left" [left.defaultNode moment]
  | .option _ _ => .app "None" []
  | _ => .seq []

variable {moment : String}

theorem hasDefault_of_mem_members {ty m : Ty} (h : ty.HasDefault) (hm : m ∈ ty.members) :
    m.HasDefault :=
  of_mem_members (fun _ _ _ h => ⟨h.1, h.2.1⟩) h hm

/-- **The default of a choice is that of its first leaf**, at the end of the path of it. -/
theorem exists_first_leaf (moment : String) {i : Info} {left right : Ty}
    (h : (or i left right).HasDefault) :
    ∃ path leaf rest, (or i left right).leaves = (path, leaf) :: rest ∧ leaf.HasDefault
      ∧ leaf.name ≠ branchKey
      ∧ (or i left right).defaultNode moment = wrap path (leaf.defaultNode moment) := by
  -- the left side is the leaf itself, unless it is a choice that counts as part of this one
  have hleaf {i : Info} {left right : Ty} (hinner : left.isInnerOr = false)
      (h : (or i left right).HasDefault) :
      ∃ path leaf rest, (or i left right).leaves = (path, leaf) :: rest ∧ leaf.HasDefault
        ∧ leaf.name ≠ branchKey
        ∧ (or i left right).defaultNode moment = wrap path (leaf.defaultNode moment) := by
    exact ⟨[.left], left, _, by rw [leaves, hinner]; rfl, h.1, h.2 hinner, rfl⟩
  induction left generalizing i right with
  | or j l r ihl ihr =>
    cases hinner : (or j l r).isInnerOr with
    | false => exact hleaf hinner h
    | true =>
      obtain ⟨path, leaf, rest, hleaves, hdefault, hname, hnode⟩ := @ihl j r h.1
      exact ⟨.left :: path, leaf, _, by rw [leaves, hinner, if_pos rfl, hleaves]; rfl, hdefault,
        hname, congrArg (fun n => Node.app "Left" [n]) hnode⟩
  | _ => exact hleaf rfl h

/-- **The default settles, and is what its value is written as.** -/
theorem exists_settle_default {ty : Ty} (h : ty.HasDefault) :
    ∃ v, ty.settle (ty.defaultNode moment) = .ok v
      ∧ ty.project .preserve v = .ok (ty.defaultNode moment) := by
  induction ty with
  | scalar i kind =>
    have hfits : (kind.content.default moment).Fits kind.content := by
      cases kind with
      | address | key | keyHash | signature | chainId | rollupAddress =>
        -- identifiers have no default that could be read
        exact absurd h (by simp [HasDefault, Scalar.defaulted])
      | nat | mutez =>
        refine ⟨rfl, fun _ value hvalue => ?_⟩
        obtain rfl := Literal.int.inj hvalue
        exact Int.le_refl 0
      | _ => exact ⟨rfl, nofun⟩
    exact ⟨_, (settle_literal_eq_ok_iff .scalar).2 ⟨_, rfl, rfl, hfits⟩, rfl⟩
  | pair i left right ihl ihr =>
    obtain ⟨a, ha, ha'⟩ := ihl h.1
    obtain ⟨b, hb, hb'⟩ := ihr h.2.1
    refine ⟨_, settle_pair_eq_ok_iff.2 ⟨_, _, _, a, b, .pair, ha, hb, rfl⟩, ?_⟩
    exact bind_eq_ok_iff.2 ⟨_, ha', bind_eq_ok_iff.2 ⟨_, hb', rfl⟩⟩
  | or i left right ihl ihr =>
    -- the default of a choice is that of its first leaf
    obtain ⟨a, ha, ha'⟩ := ihl h.1
    refine ⟨.left a, settle_or_eq_ok_iff.2 (.inl ⟨_, a, [], rfl, ha, rfl⟩), ?_⟩
    exact bind_eq_ok_iff.2 ⟨_, ha', rfl⟩
  | unit | bool | option | list | set | map | bigMap => exact ⟨_, rfl, rfl⟩
  | _ => cases h

end Ty

/-! ### Defaults of schemas -/

namespace Schema

variable {s base : Schema} {ps : List (String × Schema)}

/-- An object is filled with its properties. -/
theorem defaultSubmission_object (hkind : s.kind = some "object") (hconstant : s.constant = none)
    (hone : s.oneOf = []) : s.defaultSubmission = .obj (defaults s.properties) := by
  cases s
  subst hkind hconstant hone
  rfl

/-- The default submission of an object has each property with its own default. -/
theorem defaultSubmission_withProperties (hbare : base.IsBare) (hkind : base.kind = some "object")
    (hconstant : base.constant = none) (hnodup : (ps.map (·.1)).Nodup) :
    (base.withProperties ps).defaultSubmission = .obj (defaults ps) := by
  have hobject : (base.withProperties ps).defaultSubmission
      = .obj (defaults (base.withProperties ps).properties) :=
    defaultSubmission_object hkind hconstant hbare.oneOf
  rw [hobject, withProperties, hbare.properties]
  exact congrArg (fun ps => Json.obj (defaults ps)) (Members.ofList_of_nodup hnodup)

/-- Branches are filled with the properties of the first one. -/
theorem defaultSubmission_branches {first : Schema} {rest : List Schema}
    (hconstant : s.constant = none) (hone : s.oneOf = first :: rest) :
    s.defaultSubmission = .obj (defaults first.properties) := by
  cases s
  cases first
  subst hconstant hone
  rfl

theorem defaults_eq_map (ps : List (String × Schema)) :
    defaults ps = ps.map fun p => (p.1, p.2.defaultSubmission) := by
  induction ps with
  | nil => rfl
  | cons p ps ih => rw [List.map_cons, ← ih, defaults]

/-- What a property is filled with is found by its name where no other one has it. -/
theorem find?_defaults (hnodup : (ps.map (·.1)).Nodup) {p : String × Schema} (hp : p ∈ ps) :
    Members.find? p.1 (defaults ps) = some p.2.defaultSubmission := by
  rw [defaults_eq_map]
  refine Members.find?_of_mem ?_ (List.mem_map_of_mem hp)
  rwa [List.map_map]

end Schema

/-! ### Reading defaults -/

namespace Ty

variable {now : Int} {moment : String} {tys : List Ty} {props : List (String × Schema)}
  {ms : List (String × Json)}

/-- The default of the type is read from what its schema is filled with. -/
def ReadsDefault (now : Int) (moment : String) (ty : Ty) : Prop :=
  ∀ s, ty.schema now = .ok s → ty.submit s.defaultSubmission = .ok (ty.defaultNode moment)

/-- The default is read from a member that holds what the property is filled with. -/
theorem member_default {m : Ty} (hprops : properties now tys = .ok props)
    (hfind : ∀ p ∈ props, Members.find? p.1 ms = some p.2.defaultSubmission) (hm : m ∈ tys)
    (hread : m.ReadsDefault now moment) : member m m.submit ms = .ok (m.defaultNode moment) := by
  rw [member]
  split
  next hunit =>
    cases m with
    | unit i => rfl
    | _ => cases hunit
  next hunit =>
    have hmem : m ∈ tys.filter (!·.isUnit) :=
      List.mem_filter.2 ⟨hm, by rw [Bool.eq_false_iff.2 hunit]; rfl⟩
    obtain ⟨p, hp, hpm⟩ := exists_of_mem_of_mapM hprops m hmem
    obtain ⟨s, hs, hpm⟩ := bind_eq_ok_iff.1 hpm
    obtain rfl := pure_eq_ok_iff.1 hpm
    have hname := hfind _ hp
    rw [hname]
    exact hread s hs

/-- The default of a scalar's schema is read as the default literal. -/
theorem literal_default {i : Info} {kind : Scalar} (h : kind ∈ Scalar.defaulted)
    (htext : Timestamp.text? now = some moment) (hyear : Timestamp.HasPlainYear now) :
    literal (scalar i kind) kind.content
        (Schema.ofContent now (scalar i kind) kind.content).defaultSubmission
      = .ok (kind.content.default moment).node := by
  cases kind with
  | address | key | keyHash | signature | chainId | rollupAddress =>
    exact absurd h (by simp [Scalar.defaulted])
  | timestamp =>
    have hfilled : (Schema.ofContent now (scalar i .timestamp) .time).defaultSubmission
        = .str moment := by
      show Json.str ((Timestamp.text? now).getD _) = _
      rw [htext]
      rfl
    show literal _ .time (Schema.ofContent now (scalar i .timestamp) .time).defaultSubmission = _
    rw [hfilled]
    exact bind_eq_ok_iff.2
      ⟨moment, checked_of_parse (Timestamp.parse_of_text? htext hyear), rfl⟩
  | _ => rfl

theorem readsDefault_scalar {i : Info} {kind : Scalar} (h : (scalar i kind).HasDefault)
    (htext : Timestamp.text? now = some moment) (hyear : Timestamp.HasPlainYear now) :
    (scalar i kind).ReadsDefault now moment := by
  intro s hs
  have hkind : kind ≠ .address := by
    rintro rfl
    exact absurd h (by simp [HasDefault, Scalar.defaulted])
  rw [schema] at hs
  · obtain rfl := Except.ok.inj hs
    rw [submit]
    exact literal_default h htext hyear
  · exact hkind

/-- **The default of a pair is read from an object with those of its members**, at any depth. -/
theorem submit_of_members {ty : Ty} (hpair : ty.isPair = true)
    (h : ∀ m ∈ ty.members, member m m.submit ms = .ok (m.defaultNode moment)) :
    ty.submit (.obj ms) = .ok (ty.defaultNode moment) := by
  induction ty with
  | pair i left right ihl ihr =>
    rw [members] at h
    obtain ⟨hleft, hright⟩ := List.forall_mem_append.1 h
    -- a part is an inner pair, which is read from the same object, or a member
    have hpart {c : Ty} (ih : c.isPair = true →
          (∀ m ∈ c.members, member m m.submit ms = .ok (m.defaultNode moment)) →
          c.submit (.obj ms) = .ok (c.defaultNode moment))
        (h : ∀ m ∈ (if c.isInnerPair then c.members else [c]),
          member m m.submit ms = .ok (m.defaultNode moment)) :
        Typed.submitPart c ms = .ok (c.defaultNode moment) := by
      rw [Typed.submitPart]
      split at h
      next hinner =>
        rw [if_pos hinner]
        cases c with
        | pair => exact ih rfl h
        | _ => cases hinner
      next hinner =>
        rw [if_neg hinner]
        exact h c List.mem_cons_self
    rw [Typed.submit_pair]
    exact bind_eq_ok_iff.2 ⟨_, hpart ihl hleft, bind_eq_ok_iff.2 ⟨_, hpart ihr hright, rfl⟩⟩
  | _ => cases hpair

/-- The default of a pair is read member by member. -/
theorem readsDefault_pair {i : Info} {left right : Ty} (h : (pair i left right).HasDefault)
    (hread : ∀ m ∈ (pair i left right).members, m.ReadsDefault now moment) :
    (pair i left right).ReadsDefault now moment := by
  intro s hs
  rw [schema_pair] at hs
  obtain ⟨props, hprops, hs⟩ := bind_eq_ok_iff.1 hs
  obtain rfl := pure_eq_ok_iff.1 hs
  have hnodup : (props.map (·.1)).Nodup := by
    rw [map_fst_of_properties hprops]
    exact h.2.2
  have hbare := Schema.isBare_ofTy "object" (pair i left right)
  -- Both sides read the members by name, which finds the same one as long as the names differ.
  rw [Schema.defaultSubmission_withProperties hbare rfl rfl hnodup]
  exact submit_of_members rfl fun m hm =>
    member_default hprops (fun p hp => Schema.find?_defaults hnodup hp) hm (hread m hm)

/-- What a branch is filled with: its key, and what its payload is filled with. -/
theorem exists_branch_default {ty : Ty} (title key : String) (hname : ty.name ≠ branchKey)
    (hprops : properties now [ty] = .ok props) (hread : ty.ReadsDefault now moment) :
    ∃ ms, Schema.defaults ((Schema.branch title key).withProperties props).properties = ms
      ∧ Members.find? branchKey ms = some (.str key)
      ∧ member ty ty.submit ms = .ok (ty.defaultNode moment) := by
  have hnodup : (((branchKey, Schema.discriminator key) :: props).map (·.1)).Nodup := by
    rw [List.map_cons, map_fst_of_properties hprops]
    exact nodup_branch_names hname
  have hproperties : ((Schema.branch title key).withProperties props).properties
      = (branchKey, Schema.discriminator key) :: props := Members.ofList_of_nodup hnodup
  rw [hproperties]
  refine ⟨_, rfl, Schema.find?_defaults hnodup List.mem_cons_self, ?_⟩
  exact member_default hprops
    (fun p hp => Schema.find?_defaults hnodup (List.mem_cons_of_mem _ hp))
    (List.mem_singleton_self ty) hread

/-- The default of a choice is that of the first leaf. -/
theorem readsDefault_or {i : Info} {left right : Ty} (h : (or i left right).HasDefault)
    (hread : ∀ leaf ∈ (or i left right).leaves, leaf.2.HasDefault →
      leaf.2.ReadsDefault now moment) : (or i left right).ReadsDefault now moment := by
  intro s hs
  obtain ⟨path, leaf, rest, hleaves, hdefault, hname, hnode⟩ := exists_first_leaf moment h
  have hleaf : (path, leaf) ∈ (or i left right).leaves := hleaves ▸ List.mem_cons_self
  rw [schema_or] at hs
  obtain ⟨bs, hbs, hs⟩ := bind_eq_ok_iff.1 hs
  obtain rfl := pure_eq_ok_iff.1 hs
  -- the form is filled with the first branch, which is that of the first leaf
  rw [hleaves, List.mapM_cons] at hbs
  obtain ⟨first, hfirst, hbs⟩ := bind_eq_ok_iff.1 hbs
  obtain ⟨others, -, hbs⟩ := bind_eq_ok_iff.1 hbs
  obtain rfl := pure_eq_ok_iff.1 hbs
  obtain ⟨props, hprops, hfirst⟩ := bind_eq_ok_iff.1 hfirst
  obtain rfl := pure_eq_ok_iff.1 hfirst
  obtain ⟨ms, hms, hkey, hmember⟩ := exists_branch_default leaf.name (pathKey path) hname hprops
    (hread _ hleaf hdefault)
  rw [Schema.defaultSubmission_branches rfl rfl, hms, hnode]
  exact Typed.submit_or_of_leaf hleaf hkey hmember

/-- **The default of a type is read from what its schema is filled with.** -/
theorem readsDefault {ty : Ty} (h : ty.HasDefault) (htext : Timestamp.text? now = some moment)
    (hyear : Timestamp.HasPlainYear now) : ty.ReadsDefault now moment := by
  -- members and leaves may stand several levels down, so the induction is on the size
  induction hsize : ty.size using Nat.strongRecOn generalizing ty with
  | _ size ih =>
    subst hsize
    cases ty with
    | scalar i kind => exact readsDefault_scalar h htext hyear
    | pair i left right =>
      exact readsDefault_pair h fun m hm =>
        ih _ (size_lt_of_mem_members hm) (hasDefault_of_mem_members h hm) rfl
    | or i left right =>
      exact readsDefault_or h fun leaf hleaf hdefault =>
        ih _ (size_lt_of_mem_leaves hleaf) hdefault rfl
    | unit i =>
      intro s hs
      rw [submit]
      rfl
    | bool i =>
      intro s hs
      rw [schema] at hs
      obtain rfl := Except.ok.inj hs
      show (bool i).submit (.bool false) = _
      rw [submit]
      rfl
    | option i inner =>
      intro s hs
      rw [schema_option] at hs
      obtain ⟨props, -, hs⟩ := bind_eq_ok_iff.1 hs
      obtain rfl := pure_eq_ok_iff.1 hs
      rw [Schema.defaultSubmission_branches rfl rfl, submit]
      rfl
    | list i elem | set i elem =>
      intro s hs
      rw [schema] at hs
      obtain ⟨item, -, hs⟩ := bind_eq_ok_iff.1 hs
      obtain rfl := pure_eq_ok_iff.1 hs
      rw [submit]
      rfl
    | map i key value | bigMap i key value =>
      intro s hs
      rw [schema] at hs
      obtain ⟨ks, -, hs⟩ := bind_eq_ok_iff.1 hs
      obtain ⟨vs, -, hs⟩ := bind_eq_ok_iff.1 hs
      obtain rfl := pure_eq_ok_iff.1 hs
      rw [submit]
      rfl
    | _ => cases h

end Ty

/-! ### Trees -/

namespace Tree

variable {t : Tree} {now : Int} {moment : String} {s : Schema}

/-- The defaults of the roots are read from what the schema of the tree is filled with. -/
theorem submitted_default (hroots : ∀ root ∈ t.roots, root.ReadsDefault now moment)
    (hnames : (Ty.properNames t.roots).Nodup) (hs : t.schema now = .ok s) :
    t.submitted s.defaultSubmission = .ok (t.roots.map (Ty.defaultNode moment)) := by
  rcases schema_cases hs with
    ⟨root, hroot, halone, hs⟩ | ⟨hwrapped, base, props, hbare, hkind, hconstant, -, hprops, rfl⟩
  · have hread : root.submit s.defaultSubmission = .ok (root.defaultNode moment) :=
      hroots root (hroot ▸ List.mem_singleton_self root) s hs
    rw [submitted, hroot, if_pos ⟨rfl, by simp [halone]⟩]
    exact mapM_eq_ok_iff.2 (.cons hread .nil)
  · have hnodup : (props.map (·.1)).Nodup := by
      rw [Ty.map_fst_of_properties hprops]
      exact hnames
    rw [Schema.defaultSubmission_withProperties hbare hkind hconstant hnodup, submitted, if_neg]
    · have hmember : ∀ root ∈ t.roots, member root root.submit (Schema.defaults props)
          = .ok (root.defaultNode moment) := fun root hroot =>
        Ty.member_default hprops (fun p hp => Schema.find?_defaults hnodup hp) hroot
          (hroots root hroot)
      exact mapM_eq_ok_iff.2 (List.forall₂_map_right_iff.2 (List.forall₂_same.2 hmember))
    · rintro ⟨hone, hall⟩
      obtain ⟨root, hroot⟩ := List.length_eq_one_iff.1 hone
      rw [hroot] at hall
      simp [hwrapped root hroot] at hall

/-- **The default submission settles.**  The roots have defaults, and those that are not the
unit have different names.  If there is a schema for a moment whose year has four digits, then
what the form is filled with at first settles as the structural defaults, with the moment for
all points in time. -/
theorem submit_default (hroots : ∀ root ∈ t.roots, root.HasDefault)
    (hnames : (Ty.properNames t.roots).Nodup) (hyear : Timestamp.HasPlainYear now)
    (hs : t.schema now = .ok s) :
    ∃ moment w, Timestamp.text? now = some moment ∧ Timestamp.parse moment = .ok now
      ∧ t.submit s.defaultSubmission = .ok w
      ∧ w.project .preserve = .ok (t.roots.map (Ty.defaultNode moment)) := by
  obtain ⟨moment, htext⟩ := Timestamp.exists_text? hyear
  have hsubmitted : t.submitted s.defaultSubmission
      = .ok (t.roots.map (Ty.defaultNode moment)) :=
    submitted_default (fun root hroot => Ty.readsDefault (hroots root hroot) htext hyear) hnames hs
  have hsettle : List.Forall₂ (fun root n => ∃ v, root.settle n = .ok v
      ∧ root.project .preserve v = .ok n) t.roots (t.roots.map (Ty.defaultNode moment)) :=
    List.forall₂_map_right_iff.2 (List.forall₂_same.2 fun root hroot =>
      Ty.exists_settle_default (hroots root hroot))
  obtain ⟨w, hw, hproject⟩ := exists_settle_of_forall₂ hsettle
  exact ⟨moment, w, htext, Timestamp.parse_of_text? htext hyear,
    bind_eq_ok_iff.2 ⟨_, hsubmitted, hw⟩, hproject⟩

/-- A moment, and beside it in an inner pair a choice and an optional address; the second root
is the unit, which is entered nowhere. -/
theorem submit_default_moment :
    let choice : Ty := .or ⟨3, 2, ["%choice"]⟩ (.scalar ⟨4, 3, ["%count"]⟩ .nat)
      (.scalar ⟨5, 3, ["%memo"]⟩ .string)
    let owner : Ty := .option ⟨6, 2, []⟩ (.scalar ⟨7, 3, []⟩ .address)
    let due : Ty := .scalar ⟨1, 1, ["%due"]⟩ .timestamp
    let root : Ty := .pair ⟨0, 0, []⟩ due (.pair ⟨2, 1, []⟩ choice owner)
    let t : Tree := ⟨[root, .unit ⟨8, 0, []⟩], none⟩
    (∀ root ∈ t.roots, root.HasDefault) ∧ (Ty.properNames t.roots).Nodup
      ∧ Timestamp.HasPlainYear 0
      ∧ ∃ s w, t.schema 0 = .ok s ∧ t.submit s.defaultSubmission = .ok w
        ∧ w.project .preserve = .ok [
          .app "Pair" [.string "1970-01-01T00:00:00Z",
            .app "Pair" [.app "Left" [.int 0], .app "None" []]],
          .app "Unit" []] := by
  intro choice owner due root t
  have hroots : ∀ root ∈ t.roots, root.HasDefault := by decide
  have hnames : (Ty.properNames t.roots).Nodup := by decide
  have hyear : Timestamp.HasPlainYear 0 := by decide
  -- the schema is made of those of the members
  have hmembers : ∀ m ∈ root.members, ∃ s, m.IsDescribed 0 s := by
    refine List.forall_mem_cons.2 ⟨Ty.isDescribed_scalar _ _, List.forall_mem_cons.2
      ⟨Ty.exists_isDescribed 0 ?_, List.forall_mem_singleton.2 (Ty.exists_isDescribed 0 ?_)⟩⟩
    all_goals decide
  obtain ⟨members, hmembers, -, -⟩ := Ty.exists_properties hmembers
  obtain ⟨own, hown⟩ : ∃ s, root.schema 0 = .ok s :=
    ⟨_, by rw [Ty.schema_pair]; exact bind_eq_ok_iff.2 ⟨members, hmembers, rfl⟩⟩
  have hprops : Ty.properties 0 t.roots = .ok [(root.name, own)] :=
    mapM_eq_ok_iff.2 (.cons (bind_eq_ok_iff.2 ⟨own, hown, rfl⟩) .nil)
  obtain ⟨s, hs⟩ : ∃ s, t.schema 0 = .ok s :=
    ⟨_, by rw [schema]; exact bind_eq_ok_iff.2 ⟨_, hprops, rfl⟩⟩
  obtain ⟨moment, w, htext, -, hw, hproject⟩ := submit_default hroots hnames hyear hs
  obtain rfl : "1970-01-01T00:00:00Z" = moment := Option.some.inj htext
  exact ⟨hroots, hnames, hyear, s, w, hs, hw, hproject⟩

end Tree

end Micheline
