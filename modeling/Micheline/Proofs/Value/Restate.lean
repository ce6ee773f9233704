/-
Micheline/Proofs/Value/Restate.lean

What is read back where a value was written in a form.  Restating a value puts its literals
and pairs in the form and leaves big maps without pointers where they have entries; then
writing in the form is restating and writing as settled (`Ty.exists_restate_of_project`).

A form is stable if it keeps literals in their types and does nothing a second time, and it is
faithful if it also keeps them at their places in the order.  Restating in a stable form gives
values that the type holds, with nothing brought into big maps, if the literals keep their
places (`Ty.holds_of_restate`), and restating twice is restating once (`Ty.restate_of_restate`).
-/
import Micheline.Proofs.Value.Literals
import Micheline.Proofs.Value.Rank

namespace Micheline

open Sorted

/-! ### Forms of literals -/

/-- The form keeps literals in their types, and what is in the form stays. -/
structure ValueForm.IsStable (form : ValueForm) : Prop where
  fits : ∀ {content l l'}, form.literal content l = .ok l' → Literal.Fits content l →
    Literal.Fits content l'
  idem : ∀ {content l l'}, form.literal content l = .ok l' → form.literal content l' = .ok l'

/-- The literals have the rank that they have in the form. -/
def ValueForm.KeepsRank (form : ValueForm) (ls : List (Content × Literal)) : Prop :=
  ∀ p ∈ ls, ∀ l', form.literal p.1 p.2 = .ok l' → Literal.RanksAs p.1 p.2 l'

/-- The form is stable and keeps the ranks of all literals. -/
structure ValueForm.IsFaithful (form : ValueForm) : Prop extends form.IsStable where
  keepsRank : ∀ ls, form.KeepsRank ls

theorem isFaithful_optimized : ValueForm.optimized.IsFaithful where
  fits {content l l'} h hl := by
    obtain rfl | ⟨rfl, x, rfl, -⟩ | ⟨role, data, rfl, rfl⟩ := Literal.optimize_cases h
    · exact hl
    · exact ⟨rfl, nofun⟩
    · exact ⟨rfl, nofun⟩
  idem h := Literal.optimize_of_optimize h
  keepsRank _ _ _ _ h := Literal.ranksAs_optimize h

/-- The preserved form changes no literal. -/
theorem isFaithful_preserve : ValueForm.preserve.IsFaithful where
  fits h hl := Except.ok.inj h ▸ hl
  idem h := Except.ok.inj h ▸ rfl
  keepsRank _ p _ _ h := Except.ok.inj h ▸ .refl p.1 p.2

namespace Ty

/-! ### Values in a form -/

/-- The value that is read back where a value was written in a form. -/
def restate (form : ValueForm) : Ty → Val → Except Error Val
  | .scalar _ kind, .literal l => do return .literal (← form.literal kind.content l)
  | .contract _ _, .literal l => do return .literal (← form.literal (.identifier .address) l)
  | .pair _ left right, .pair a b comb => do
    let a ← restate form left a
    let b ← restate form right b
    return .pair a b (combIn form comb)
  | .or _ left _, .left a => do return .left (← restate form left a)
  | .or _ _ right, .right b => do return .right (← restate form right b)
  | .option _ inner, .some a => do return .some (← restate form inner a)
  | .list _ elem, .items values => do return .items (← values.mapM (restate form elem))
  | .set _ elem, .items values => do return .items (← values.mapM (restate form elem))
  | .map _ key value, .entries pointer pairs => do
    return .entries pointer (← pairs.mapM (restateEntry (restate form key) (restate form value)))
  | .bigMap _ key value, .entries pointer pairs => do
    let restated ← pairs.mapM (restateEntry (restate form key) (restate form value))
    return .entries (if pairs.isEmpty then pointer else none) restated
  | .ticket _ _ paired, v => restate form paired v
  | _, v => .ok v
where
  /-- An entry in a form. -/
  restateEntry (key value : Val → Except Error Val) (pair : Val × Val) :
      Except Error (Val × Val) := do
    let k ← key pair.1
    let v ← value pair.2
    return (k, v)

theorem restateEntry_eq_ok_iff {key value : Val → Except Error Val} {p q : Val × Val} :
    restate.restateEntry key value p = .ok q ↔ key p.1 = .ok q.1 ∧ value p.2 = .ok q.2 := by
  rw [restate.restateEntry, bind_eq_ok_iff]
  constructor
  · rintro ⟨k, hk, h⟩
    obtain ⟨v, hv, h⟩ := bind_eq_ok_iff.1 h
    obtain rfl := pure_eq_ok_iff.1 h
    exact ⟨hk, hv⟩
  · rintro ⟨hk, hv⟩
    exact ⟨q.1, hk, bind_eq_ok_iff.2 ⟨q.2, hv, rfl⟩⟩

/-- A pair that is put in a form is written in the form. -/
theorem writePair_combIn (form : ValueForm) (comb : Comb) (first second : Node) :
    writePair (combIn .preserve (combIn form comb)) first second
      = writePair (combIn form comb) first second :=
  rfl

/-! ### Writing in a form -/

/-- An entry that is written can be restated. -/
theorem exists_restate_of_projectEntry {form : ValueForm} {key value : Ty} {p : Val × Val}
    {n : Node}
    (hk : ∀ n, key.project form p.1 = .ok n →
      ∃ k, key.restate form p.1 = .ok k ∧ key.project .preserve k = .ok n)
    (hv : ∀ n, value.project form p.2 = .ok n →
      ∃ v, value.restate form p.2 = .ok v ∧ value.project .preserve v = .ok n)
    (h : project.projectEntry (key.project form) (value.project form) p = .ok n) :
    ∃ q, restate.restateEntry (key.restate form) (value.restate form) p = .ok q
      ∧ project.projectEntry (key.project .preserve) (value.project .preserve) q = .ok n := by
  rw [project.projectEntry] at h
  obtain ⟨m₁, h₁, h⟩ := bind_eq_ok_iff.1 h
  obtain ⟨m₂, h₂, h⟩ := bind_eq_ok_iff.1 h
  obtain rfl := pure_eq_ok_iff.1 h
  obtain ⟨k, hk, hk'⟩ := hk m₁ h₁
  obtain ⟨v, hv, hv'⟩ := hv m₂ h₂
  refine ⟨(k, v), restateEntry_eq_ok_iff.2 ⟨hk, hv⟩, ?_⟩
  rw [project.projectEntry, hk', hv']
  rfl

/-- **Writing in a form** is restating in it and writing as settled. -/
theorem exists_restate_of_project {form : ValueForm} {loaded : Bool} {ty : Ty} {v : Val}
    {n : Node} (hv : Holds loaded ty v) (h : ty.project form v = .ok n) :
    ∃ v', ty.restate form v = .ok v' ∧ ty.project .preserve v' = .ok n := by
  induction hv generalizing n with
  | unit => exact ⟨_, rfl, h⟩
  | @bool i b => cases b <;> exact ⟨_, rfl, h⟩
  | @scalar i kind l _ | @contract i param l _ =>
    obtain ⟨l', hl, h⟩ := bind_eq_ok_iff.1 h
    obtain rfl := pure_eq_ok_iff.1 h
    exact ⟨.literal l', bind_eq_ok_iff.2 ⟨l', hl, rfl⟩, rfl⟩
  | @pair i l r a b comb _ _ _ iha ihb =>
    obtain ⟨first, hfirst, h⟩ := bind_eq_ok_iff.1 h
    obtain ⟨second, hsecond, h⟩ := bind_eq_ok_iff.1 h
    obtain rfl := pure_eq_ok_iff.1 h
    obtain ⟨a', ha, ha'⟩ := iha hfirst
    obtain ⟨b', hb, hb'⟩ := ihb hsecond
    refine ⟨.pair a' b' (combIn form comb),
      bind_eq_ok_iff.2 ⟨a', ha, bind_eq_ok_iff.2 ⟨b', hb, rfl⟩⟩,
      bind_eq_ok_iff.2 ⟨first, ha', bind_eq_ok_iff.2 ⟨second, hb', ?_⟩⟩⟩
    rw [writePair_combIn]
    rfl
  | left _ ih =>
    obtain ⟨m, hm, h⟩ := bind_eq_ok_iff.1 h
    obtain rfl := pure_eq_ok_iff.1 h
    obtain ⟨a', ha, ha'⟩ := ih hm
    exact ⟨.left a', bind_eq_ok_iff.2 ⟨a', ha, rfl⟩, bind_eq_ok_iff.2 ⟨m, ha', rfl⟩⟩
  | right _ ih =>
    obtain ⟨m, hm, h⟩ := bind_eq_ok_iff.1 h
    obtain rfl := pure_eq_ok_iff.1 h
    obtain ⟨b', hb, hb'⟩ := ih hm
    exact ⟨.right b', bind_eq_ok_iff.2 ⟨b', hb, rfl⟩, bind_eq_ok_iff.2 ⟨m, hb', rfl⟩⟩
  | none => exact ⟨_, rfl, h⟩
  | some _ ih =>
    obtain ⟨m, hm, h⟩ := bind_eq_ok_iff.1 h
    obtain rfl := pure_eq_ok_iff.1 h
    obtain ⟨a', ha, ha'⟩ := ih hm
    exact ⟨.some a', bind_eq_ok_iff.2 ⟨a', ha, rfl⟩, bind_eq_ok_iff.2 ⟨m, ha', rfl⟩⟩
  | list _ ih | set _ _ ih =>
    obtain ⟨items, hitems, h⟩ := bind_eq_ok_iff.1 h
    obtain rfl := pure_eq_ok_iff.1 h
    obtain ⟨vs, hvs, hvs'⟩ := exists_mapM_comp hitems fun v hv _ => ih v hv
    exact ⟨.items vs, bind_eq_ok_iff.2 ⟨vs, hvs, rfl⟩, bind_eq_ok_iff.2 ⟨items, hvs', rfl⟩⟩
  | @map i key value pairs _ _ _ ihk ihv =>
    obtain ⟨items, hitems, h⟩ := bind_eq_ok_iff.1 h
    obtain rfl := pure_eq_ok_iff.1 h
    obtain ⟨qs, hqs, hqs'⟩ := exists_mapM_comp hitems fun p hp _ =>
      exists_restate_of_projectEntry (fun _ => ihk p hp) (fun _ => ihv p hp)
    exact ⟨.entries none qs, bind_eq_ok_iff.2 ⟨qs, hqs, rfl⟩,
      bind_eq_ok_iff.2 ⟨items, hqs', rfl⟩⟩
  | @bigMap i key value pairs _ _ _ ihk ihv =>
    -- without a pointer there is none to leave, with entries or without
    rw [project_entries .bigMap (.inl rfl)] at h
    obtain ⟨items, hitems, h⟩ := bind_eq_ok_iff.1 h
    obtain rfl := pure_eq_ok_iff.1 h
    obtain ⟨qs, hqs, hqs'⟩ := exists_mapM_comp hitems fun p hp _ =>
      exists_restate_of_projectEntry (fun _ => ihk p hp) (fun _ => ihv p hp)
    refine ⟨.entries none qs, bind_eq_ok_iff.2 ⟨qs, hqs, by rw [ite_self]; rfl⟩, ?_⟩
    rw [project_entries .bigMap (.inl rfl)]
    exact bind_eq_ok_iff.2 ⟨items, hqs', rfl⟩
  | @pointer i key value id _ => exact ⟨.entries (some id) [], rfl, h⟩
  | @loaded i key value id pairs _ _ _ _ _ ihk ihv =>
    by_cases hp : pairs = []
    · -- a pointer alone is written as it is
      subst hp
      exact ⟨.entries (some id) [], rfl, h⟩
    · -- entries are written in place of the pointer
      rw [project_entries .bigMap (.inr hp)] at h
      obtain ⟨items, hitems, h⟩ := bind_eq_ok_iff.1 h
      obtain rfl := pure_eq_ok_iff.1 h
      obtain ⟨qs, hqs, hqs'⟩ := exists_mapM_comp hitems fun p hp _ =>
        exists_restate_of_projectEntry (fun _ => ihk p hp) (fun _ => ihv p hp)
      refine ⟨.entries none qs, bind_eq_ok_iff.2 ⟨qs, hqs, ?_⟩, ?_⟩
      · rw [if_neg (by simpa using hp)]
        rfl
      · rw [project_entries .bigMap (.inl rfl)]
        exact bind_eq_ok_iff.2 ⟨items, hqs', rfl⟩
  | lambda => exact ⟨_, rfl, h⟩
  | ticket _ ih => exact ih h
  | saplingState | saplingTransaction | constant => exact ⟨_, rfl, h⟩

/-- What a restated entry is written as, the entry is written as in the form. -/
theorem project_of_restateEntry {form : ValueForm} {key value : Ty} {p q : Val × Val}
    {n : Node}
    (hk : ∀ k n, key.restate form p.1 = .ok k → key.project .preserve k = .ok n →
      key.project form p.1 = .ok n)
    (hv : ∀ v n, value.restate form p.2 = .ok v → value.project .preserve v = .ok n →
      value.project form p.2 = .ok n)
    (hq : restate.restateEntry (key.restate form) (value.restate form) p = .ok q)
    (h : project.projectEntry (key.project .preserve) (value.project .preserve) q = .ok n) :
    project.projectEntry (key.project form) (value.project form) p = .ok n := by
  obtain ⟨hqk, hqv⟩ := restateEntry_eq_ok_iff.1 hq
  rw [project.projectEntry] at h ⊢
  obtain ⟨m₁, h₁, h⟩ := bind_eq_ok_iff.1 h
  obtain ⟨m₂, h₂, h⟩ := bind_eq_ok_iff.1 h
  obtain rfl := pure_eq_ok_iff.1 h
  rw [hk _ _ hqk h₁, hv _ _ hqv h₂]
  rfl

/-- What a restated value is written as, the value is written as in the form. -/
theorem project_of_restate {form : ValueForm} {loaded : Bool} {ty : Ty} {v v' : Val} {n : Node}
    (hv : Holds loaded ty v) (hr : ty.restate form v = .ok v')
    (h : ty.project .preserve v' = .ok n) : ty.project form v = .ok n := by
  induction hv generalizing v' n with
  | scalar _ | contract _ =>
    obtain ⟨l', hl, hr⟩ := bind_eq_ok_iff.1 hr
    obtain rfl := pure_eq_ok_iff.1 hr
    exact bind_eq_ok_iff.2 ⟨l', hl, h⟩
  | pair _ _ _ iha ihb =>
    obtain ⟨a', ha, hr⟩ := bind_eq_ok_iff.1 hr
    obtain ⟨b', hb, hr⟩ := bind_eq_ok_iff.1 hr
    obtain rfl := pure_eq_ok_iff.1 hr
    obtain ⟨first, hfirst, h⟩ := bind_eq_ok_iff.1 h
    obtain ⟨second, hsecond, h⟩ := bind_eq_ok_iff.1 h
    -- The restated pair has the comb in which the form writes it.
    rw [writePair_combIn] at h
    exact bind_eq_ok_iff.2 ⟨first, iha ha hfirst, bind_eq_ok_iff.2 ⟨second, ihb hb hsecond, h⟩⟩
  | left _ ih =>
    obtain ⟨a', ha, hr⟩ := bind_eq_ok_iff.1 hr
    obtain rfl := pure_eq_ok_iff.1 hr
    obtain ⟨m, hm, h⟩ := bind_eq_ok_iff.1 h
    exact bind_eq_ok_iff.2 ⟨m, ih ha hm, h⟩
  | right _ ih =>
    obtain ⟨b', hb, hr⟩ := bind_eq_ok_iff.1 hr
    obtain rfl := pure_eq_ok_iff.1 hr
    obtain ⟨m, hm, h⟩ := bind_eq_ok_iff.1 h
    exact bind_eq_ok_iff.2 ⟨m, ih hb hm, h⟩
  | some _ ih =>
    obtain ⟨a', ha, hr⟩ := bind_eq_ok_iff.1 hr
    obtain rfl := pure_eq_ok_iff.1 hr
    obtain ⟨m, hm, h⟩ := bind_eq_ok_iff.1 h
    exact bind_eq_ok_iff.2 ⟨m, ih ha hm, h⟩
  | list _ ih | set _ _ ih =>
    obtain ⟨vs, hvs, hr⟩ := bind_eq_ok_iff.1 hr
    obtain rfl := pure_eq_ok_iff.1 hr
    obtain ⟨items, hitems, h⟩ := bind_eq_ok_iff.1 h
    exact bind_eq_ok_iff.2 ⟨items, mapM_comp hvs hitems fun u hu _ _ => ih u hu, h⟩
  | map _ _ _ ihk ihv =>
    obtain ⟨qs, hqs, hr⟩ := bind_eq_ok_iff.1 hr
    obtain rfl := pure_eq_ok_iff.1 hr
    obtain ⟨items, hitems, h⟩ := bind_eq_ok_iff.1 h
    exact bind_eq_ok_iff.2 ⟨items, mapM_comp hqs hitems fun p hp _ _ =>
      project_of_restateEntry (fun _ _ => ihk p hp) (fun _ _ => ihv p hp), h⟩
  | bigMap _ _ _ ihk ihv =>
    obtain ⟨qs, hqs, hr⟩ := bind_eq_ok_iff.1 hr
    obtain rfl := pure_eq_ok_iff.1 hr
    rw [ite_self, project_entries .bigMap (.inl rfl)] at h
    obtain ⟨items, hitems, h⟩ := bind_eq_ok_iff.1 h
    rw [project_entries .bigMap (.inl rfl)]
    exact bind_eq_ok_iff.2 ⟨items, mapM_comp hqs hitems fun p hp _ _ =>
      project_of_restateEntry (fun _ _ => ihk p hp) (fun _ _ => ihv p hp), h⟩
  | @loaded i key value id pairs _ _ _ _ _ ihk ihv =>
    obtain ⟨qs, hqs, hr⟩ := bind_eq_ok_iff.1 hr
    obtain rfl := pure_eq_ok_iff.1 hr
    by_cases hp : pairs = []
    · subst hp
      obtain rfl := Except.ok.inj hqs
      exact h
    · rw [if_neg (by simpa using hp), project_entries .bigMap (.inl rfl)] at h
      obtain ⟨items, hitems, h⟩ := bind_eq_ok_iff.1 h
      rw [project_entries .bigMap (.inr hp)]
      exact bind_eq_ok_iff.2 ⟨items, mapM_comp hqs hitems fun p hp _ _ =>
        project_of_restateEntry (fun _ _ => ihk p hp) (fun _ _ => ihv p hp), h⟩
  | ticket _ ih => exact ih hr h
  | @bool i b =>
    obtain rfl := Except.ok.inj hr
    cases b <;> exact h
  | _ =>
    obtain rfl := Except.ok.inj hr
    exact h

/-! ### Other literals in the same form -/

/-- Entries with other literals are restated alike if the literals have the same forms. -/
theorem mapM_restateEntry_mapLiterals {form : ValueForm} {f : Content → Literal → Literal}
    {key value : Ty} {pairs qs : List (Val × Val)}
    (hf : ∀ x ∈ pairs.flatMap (fun p => key.literals p.1 ++ value.literals p.2),
      ∀ l, form.literal x.1 x.2 = .ok l → form.literal x.1 (f x.1 x.2) = .ok l)
    (ihk : ∀ p ∈ pairs, ∀ k,
      (∀ x ∈ key.literals p.1,
        ∀ l, form.literal x.1 x.2 = .ok l → form.literal x.1 (f x.1 x.2) = .ok l) →
      key.restate form p.1 = .ok k → key.restate form (key.mapLiterals f p.1) = .ok k)
    (ihv : ∀ p ∈ pairs, ∀ v,
      (∀ x ∈ value.literals p.2,
        ∀ l, form.literal x.1 x.2 = .ok l → form.literal x.1 (f x.1 x.2) = .ok l) →
      value.restate form p.2 = .ok v → value.restate form (value.mapLiterals f p.2) = .ok v)
    (h : pairs.mapM (restate.restateEntry (key.restate form) (value.restate form)) = .ok qs) :
    (pairs.map fun p => (key.mapLiterals f p.1, value.mapLiterals f p.2)).mapM
      (restate.restateEntry (key.restate form) (value.restate form)) = .ok qs := by
  refine mapM_eq_ok_iff.2 (List.forall₂_map_left_iff.2 (forall₂_of_mapM h fun p hp q hpq => ?_))
  obtain ⟨hk, hv⟩ := List.forall_mem_append.1 fun x hx => hf x (List.mem_flatMap.2 ⟨p, hp, hx⟩)
  obtain ⟨hqk, hqv⟩ := restateEntry_eq_ok_iff.1 hpq
  exact restateEntry_eq_ok_iff.2 ⟨ihk p hp _ hk hqk, ihv p hp _ hv hqv⟩

/-- **Literals with the same forms restate alike.** -/
theorem restate_mapLiterals {form : ValueForm} {f : Content → Literal → Literal} {loaded : Bool}
    {ty : Ty} {v v' : Val} (hv : Holds loaded ty v)
    (hf : ∀ x ∈ ty.literals v,
      ∀ l, form.literal x.1 x.2 = .ok l → form.literal x.1 (f x.1 x.2) = .ok l)
    (h : ty.restate form v = .ok v') : ty.restate form (ty.mapLiterals f v) = .ok v' := by
  induction hv generalizing v' with
  | scalar _ | contract _ =>
    obtain ⟨l, hl, h⟩ := bind_eq_ok_iff.1 h
    exact bind_eq_ok_iff.2 ⟨l, hf _ List.mem_cons_self l hl, h⟩
  | pair _ _ _ iha ihb =>
    obtain ⟨hfa, hfb⟩ := List.forall_mem_append.1 hf
    obtain ⟨a', ha, h⟩ := bind_eq_ok_iff.1 h
    obtain ⟨b', hb, h⟩ := bind_eq_ok_iff.1 h
    exact bind_eq_ok_iff.2 ⟨a', iha hfa ha, bind_eq_ok_iff.2 ⟨b', ihb hfb hb, h⟩⟩
  | left _ ih =>
    obtain ⟨a', ha, h⟩ := bind_eq_ok_iff.1 h
    exact bind_eq_ok_iff.2 ⟨a', ih hf ha, h⟩
  | right _ ih =>
    obtain ⟨b', hb, h⟩ := bind_eq_ok_iff.1 h
    exact bind_eq_ok_iff.2 ⟨b', ih hf hb, h⟩
  | some _ ih =>
    obtain ⟨a', ha, h⟩ := bind_eq_ok_iff.1 h
    exact bind_eq_ok_iff.2 ⟨a', ih hf ha, h⟩
  | list _ ih | set _ _ ih =>
    obtain ⟨vs, hvs, h⟩ := bind_eq_ok_iff.1 h
    refine bind_eq_ok_iff.2 ⟨vs, mapM_eq_ok_iff.2 (List.forall₂_map_left_iff.2 ?_), h⟩
    exact forall₂_of_mapM hvs fun u hu _ hu' =>
      ih u hu (fun x hx => hf x (List.mem_flatMap.2 ⟨u, hu, hx⟩)) hu'
  | map _ _ _ ihk ihv =>
    obtain ⟨qs, hqs, h⟩ := bind_eq_ok_iff.1 h
    exact bind_eq_ok_iff.2 ⟨qs, mapM_restateEntry_mapLiterals hf (fun p hp _ => ihk p hp)
      (fun p hp _ => ihv p hp) hqs, h⟩
  | bigMap _ _ _ ihk ihv =>
    obtain ⟨qs, hqs, h⟩ := bind_eq_ok_iff.1 h
    refine bind_eq_ok_iff.2 ⟨qs, mapM_restateEntry_mapLiterals hf (fun p hp _ => ihk p hp)
      (fun p hp _ => ihv p hp) hqs, ?_⟩
    rw [ite_self] at h ⊢
    exact h
  | loaded _ _ _ _ _ ihk ihv =>
    obtain ⟨qs, hqs, h⟩ := bind_eq_ok_iff.1 h
    refine bind_eq_ok_iff.2 ⟨qs, mapM_restateEntry_mapLiterals hf (fun p hp _ => ihk p hp)
      (fun p hp _ => ihv p hp) hqs, ?_⟩
    -- Whether entries are written or the pointer depends on there being entries, which stays so.
    rw [List.isEmpty_map]
    exact h
  | ticket _ ih => exact ih hf h
  | _ => exact h

/-! ### Restating in a stable form -/

section Stable

variable {form : ValueForm} {loaded : Bool}

/-- **Restating keeps the rank** if the literals do. -/
theorem ranksAs_restate {ty : Ty} {v v' : Val} (hv : Holds loaded ty v)
    (hrank : form.KeepsRank (ty.literals v)) (h : ty.restate form v = .ok v') :
    ty.RanksAs v v' := by
  induction hv generalizing v' with
  | unit | bool => exact Except.ok.inj h ▸ .refl _ _
  | scalar _ =>
    obtain ⟨l', hl', h⟩ := bind_eq_ok_iff.1 h
    obtain rfl := pure_eq_ok_iff.1 h
    exact ranksAs_literal .scalar (hrank _ List.mem_cons_self l' hl')
  | contract _ =>
    obtain ⟨l', hl', h⟩ := bind_eq_ok_iff.1 h
    obtain rfl := pure_eq_ok_iff.1 h
    exact ranksAs_literal .contract (hrank _ List.mem_cons_self l' hl')
  | pair _ _ _ iha ihb =>
    obtain ⟨hranka, hrankb⟩ := List.forall_mem_append.1 hrank
    obtain ⟨a', ha, h⟩ := bind_eq_ok_iff.1 h
    obtain ⟨b', hb, h⟩ := bind_eq_ok_iff.1 h
    obtain rfl := pure_eq_ok_iff.1 h
    exact ranksAs_pair (iha hranka ha) (ihb hrankb hb)
  | left _ ih =>
    obtain ⟨a', ha, h⟩ := bind_eq_ok_iff.1 h
    obtain rfl := pure_eq_ok_iff.1 h
    exact ranksAs_val .left (ih hrank ha)
  | right _ ih =>
    obtain ⟨b', hb, h⟩ := bind_eq_ok_iff.1 h
    obtain rfl := pure_eq_ok_iff.1 h
    exact ranksAs_val .right (ih hrank hb)
  | none => exact Except.ok.inj h ▸ .refl _ _
  | some _ ih =>
    obtain ⟨a', ha, h⟩ := bind_eq_ok_iff.1 h
    obtain rfl := pure_eq_ok_iff.1 h
    exact ranksAs_some (ih hrank ha)
  -- the other types have no order
  | _ => exact fun _ => ⟨rfl, rfl⟩

theorem combIn_combIn (comb : Comb) : combIn form (combIn form comb) = combIn form comb := by
  unfold combIn
  split <;> rfl

/-- The entries of a map in a form. -/
theorem holdsEntries_of_restate {key value : Ty} {pairs qs : List (Val × Val)}
    (hkeys : ∀ p ∈ pairs, Holds loaded key p.1)
    (hrank : form.KeepsRank (pairs.flatMap fun p => key.literals p.1 ++ value.literals p.2))
    (hk : ∀ p ∈ pairs, ∀ k, form.KeepsRank (key.literals p.1) →
      key.restate form p.1 = .ok k → Holds false key k)
    (hv : ∀ p ∈ pairs, ∀ v, form.KeepsRank (value.literals p.2) →
      value.restate form p.2 = .ok v → Holds false value v)
    (hs : Ascending key.compare (pairs.map (·.1)))
    (h : pairs.mapM (restate.restateEntry (key.restate form) (value.restate form)) = .ok qs) :
    HoldsEntries false key value qs := by
  have hranks : ∀ p ∈ pairs,
      form.KeepsRank (key.literals p.1) ∧ form.KeepsRank (value.literals p.2) := by
    intro p hp
    exact List.forall_mem_append.1 fun q hq => hrank q (List.mem_flatMap.2 ⟨p, hp, hq⟩)
  refine ⟨fun q hq => ?_, fun q hq => ?_, ?_⟩
  · obtain ⟨p, hp, hpq⟩ := exists_of_mem_mapM h q hq
    exact hk p hp _ (hranks p hp).1 (restateEntry_eq_ok_iff.1 hpq).1
  · obtain ⟨p, hp, hpq⟩ := exists_of_mem_mapM h q hq
    exact hv p hp _ (hranks p hp).2 (restateEntry_eq_ok_iff.1 hpq).2
  · refine ascending_of_ranksAs ?_ hs
    rw [List.forall₂_map_left_iff, List.forall₂_map_right_iff]
    exact forall₂_of_mapM h fun p hp q hpq =>
      ranksAs_restate (hkeys p hp) (hranks p hp).1 (restateEntry_eq_ok_iff.1 hpq).1

/-- **What is restated is held**, and nothing is left in big maps with a pointer, if the
literals keep their ranks. -/
theorem holds_of_restate (hf : form.IsStable) {ty : Ty} {v v' : Val} (hv : Holds loaded ty v)
    (hrank : form.KeepsRank (ty.literals v)) (h : ty.restate form v = .ok v') :
    Holds false ty v' := by
  induction hv generalizing v' with
  | scalar hl =>
    obtain ⟨l', hl', h⟩ := bind_eq_ok_iff.1 h
    obtain rfl := pure_eq_ok_iff.1 h
    exact .scalar (hf.fits hl' hl)
  | contract hl =>
    obtain ⟨l', hl', h⟩ := bind_eq_ok_iff.1 h
    obtain rfl := pure_eq_ok_iff.1 h
    exact .contract (hf.fits hl' hl)
  | pair _ _ hcomb iha ihb =>
    obtain ⟨hranka, hrankb⟩ := List.forall_mem_append.1 hrank
    obtain ⟨a', ha, h⟩ := bind_eq_ok_iff.1 h
    obtain ⟨b', hb, h⟩ := bind_eq_ok_iff.1 h
    obtain rfl := pure_eq_ok_iff.1 h
    exact .pair (iha hranka ha) (ihb hrankb hb) fun hj => hcomb (eq_joined_of_combIn hj)
  | left _ ih =>
    obtain ⟨a', ha, h⟩ := bind_eq_ok_iff.1 h
    obtain rfl := pure_eq_ok_iff.1 h
    exact .left (ih hrank ha)
  | right _ ih =>
    obtain ⟨b', hb, h⟩ := bind_eq_ok_iff.1 h
    obtain rfl := pure_eq_ok_iff.1 h
    exact .right (ih hrank hb)
  | some _ ih =>
    obtain ⟨a', ha, h⟩ := bind_eq_ok_iff.1 h
    obtain rfl := pure_eq_ok_iff.1 h
    exact .some (ih hrank ha)
  | list _ ih =>
    obtain ⟨vs, hvs, h⟩ := bind_eq_ok_iff.1 h
    obtain rfl := pure_eq_ok_iff.1 h
    refine .list fun v hv => ?_
    obtain ⟨u, hu, huv⟩ := exists_of_mem_mapM hvs v hv
    exact ih u hu (fun p hp => hrank p (List.mem_flatMap.2 ⟨u, hu, hp⟩)) huv
  | @set i elem values hheld hs ih =>
    obtain ⟨vs, hvs, h⟩ := bind_eq_ok_iff.1 h
    obtain rfl := pure_eq_ok_iff.1 h
    have hranks : ∀ u ∈ values, form.KeepsRank (elem.literals u) :=
      fun u hu p hp => hrank p (List.mem_flatMap.2 ⟨u, hu, hp⟩)
    -- the order does not see the form of the elements
    refine .set (fun v hv => ?_) (ascending_of_ranksAs ?_ hs)
    · obtain ⟨u, hu, huv⟩ := exists_of_mem_mapM hvs v hv
      exact ih u hu (hranks u hu) huv
    · exact forall₂_of_mapM hvs fun u hu v huv => ranksAs_restate (hheld u hu) (hranks u hu) huv
  | map hkeys _ hs ihk ihv =>
    obtain ⟨qs, hqs, h⟩ := bind_eq_ok_iff.1 h
    obtain rfl := pure_eq_ok_iff.1 h
    have hd := holdsEntries_of_restate hkeys hrank (fun p hp _ => ihk p hp)
      (fun p hp _ => ihv p hp) hs hqs
    exact .map hd.keys hd.values hd.ascending
  | bigMap hkeys _ hs ihk ihv =>
    obtain ⟨qs, hqs, h⟩ := bind_eq_ok_iff.1 h
    obtain rfl := pure_eq_ok_iff.1 h
    have hd := holdsEntries_of_restate hkeys hrank (fun p hp _ => ihk p hp)
      (fun p hp _ => ihv p hp) hs hqs
    rw [ite_self]
    exact .bigMap hd.keys hd.values hd.ascending
  | @loaded i key value id pairs _ hid hkeys _ hs ihk ihv =>
    obtain ⟨qs, hqs, h⟩ := bind_eq_ok_iff.1 h
    obtain rfl := pure_eq_ok_iff.1 h
    have hd := holdsEntries_of_restate hkeys hrank (fun p hp _ => ihk p hp)
      (fun p hp _ => ihv p hp) hs hqs
    by_cases hp : pairs = []
    · subst hp
      obtain rfl := Except.ok.inj hqs
      exact .pointer hid
    · -- the pointer is gone, and the entries are those of a literal map
      rw [if_neg (by simpa using hp)]
      exact .bigMap hd.keys hd.values hd.ascending
  | ticket _ ih => exact .ticket (ih hrank h)
  | _ =>
    -- the others stay as they are
    obtain rfl := Except.ok.inj h
    constructor
    try assumption

/-- Restated entries are restated as they are. -/
theorem restateEntries_self {key value : Ty} {pairs qs : List (Val × Val)}
    (hk : ∀ p ∈ pairs, ∀ k, key.restate form p.1 = .ok k → key.restate form k = .ok k)
    (hv : ∀ p ∈ pairs, ∀ v, value.restate form p.2 = .ok v → value.restate form v = .ok v)
    (h : pairs.mapM (restate.restateEntry (key.restate form) (value.restate form)) = .ok qs) :
    qs.mapM (restate.restateEntry (key.restate form) (value.restate form)) = .ok qs :=
  mapM_self_of_mapM h fun p hp q hpq => by
    obtain ⟨hpk, hpv⟩ := restateEntry_eq_ok_iff.1 hpq
    exact restateEntry_eq_ok_iff.2 ⟨hk p hp _ hpk, hv p hp _ hpv⟩

/-- **Restating twice is restating once.** -/
theorem restate_of_restate (hf : form.IsStable) {ty : Ty} {v v' : Val}
    (hv : Holds loaded ty v) (h : ty.restate form v = .ok v') : ty.restate form v' = .ok v' := by
  induction hv generalizing v' with
  | scalar _ | contract _ =>
    obtain ⟨l', hl', h⟩ := bind_eq_ok_iff.1 h
    obtain rfl := pure_eq_ok_iff.1 h
    exact bind_eq_ok_iff.2 ⟨l', hf.idem hl', rfl⟩
  | pair _ _ _ iha ihb =>
    obtain ⟨a', ha, h⟩ := bind_eq_ok_iff.1 h
    obtain ⟨b', hb, h⟩ := bind_eq_ok_iff.1 h
    obtain rfl := pure_eq_ok_iff.1 h
    refine bind_eq_ok_iff.2 ⟨a', iha ha, bind_eq_ok_iff.2 ⟨b', ihb hb, ?_⟩⟩
    rw [combIn_combIn]
    rfl
  | left _ ih =>
    obtain ⟨a', ha, h⟩ := bind_eq_ok_iff.1 h
    obtain rfl := pure_eq_ok_iff.1 h
    exact bind_eq_ok_iff.2 ⟨a', ih ha, rfl⟩
  | right _ ih =>
    obtain ⟨b', hb, h⟩ := bind_eq_ok_iff.1 h
    obtain rfl := pure_eq_ok_iff.1 h
    exact bind_eq_ok_iff.2 ⟨b', ih hb, rfl⟩
  | some _ ih =>
    obtain ⟨a', ha, h⟩ := bind_eq_ok_iff.1 h
    obtain rfl := pure_eq_ok_iff.1 h
    exact bind_eq_ok_iff.2 ⟨a', ih ha, rfl⟩
  | list _ ih | set _ _ ih =>
    obtain ⟨vs, hvs, h⟩ := bind_eq_ok_iff.1 h
    obtain rfl := pure_eq_ok_iff.1 h
    exact bind_eq_ok_iff.2 ⟨vs, mapM_self_of_mapM hvs fun u hu _ => ih u hu, rfl⟩
  | map _ _ _ ihk ihv =>
    obtain ⟨qs, hqs, h⟩ := bind_eq_ok_iff.1 h
    obtain rfl := pure_eq_ok_iff.1 h
    exact bind_eq_ok_iff.2 ⟨qs, restateEntries_self (fun p hp _ => ihk p hp)
      (fun p hp _ => ihv p hp) hqs, rfl⟩
  | bigMap _ _ _ ihk ihv =>
    obtain ⟨qs, hqs, h⟩ := bind_eq_ok_iff.1 h
    obtain rfl := pure_eq_ok_iff.1 h
    refine bind_eq_ok_iff.2 ⟨qs, restateEntries_self (fun p hp _ => ihk p hp)
      (fun p hp _ => ihv p hp) hqs, ?_⟩
    rw [ite_self, ite_self]
    rfl
  | @loaded i key value id pairs _ _ _ _ _ ihk ihv =>
    obtain ⟨qs, hqs, h⟩ := bind_eq_ok_iff.1 h
    obtain rfl := pure_eq_ok_iff.1 h
    by_cases hp : pairs = []
    · subst hp
      obtain rfl := Except.ok.inj hqs
      rfl
    · have hne : ¬ pairs.isEmpty = true := by simpa using hp
      rw [if_neg hne]
      refine bind_eq_ok_iff.2 ⟨qs, restateEntries_self (fun p hp _ => ihk p hp)
        (fun p hp _ => ihv p hp) hqs, ?_⟩
      rw [ite_self]
      rfl
  | ticket _ ih => exact ih h
  -- nothing is restated in the other ones
  | _ => exact Except.ok.inj h ▸ h

/-- **What is written in a stable form settles** to the restated value, if the literals keep
their ranks. -/
theorem settle_of_restate (hf : form.IsStable) {ty : Ty} {v v' : Val} {n : Node}
    (hv : Holds loaded ty v) (hrank : form.KeepsRank (ty.literals v))
    (hr : ty.restate form v = .ok v') (h : ty.project .preserve v' = .ok n) :
    ty.settle n = .ok v' := by
  obtain ⟨m, hm, hsettle⟩ := exists_project_preserve (holds_of_restate hf hv hrank hr)
  obtain rfl : m = n := Except.ok.inj (hm.symm.trans h)
  exact hsettle

/-- **What is written in a stable form settles**, to a value that is written so again, if the
literals keep their ranks. -/
theorem exists_settle_of_keepsRank (hf : form.IsStable) {ty : Ty} {v : Val} {n : Node}
    (hv : Holds loaded ty v) (hrank : form.KeepsRank (ty.literals v))
    (h : ty.project form v = .ok n) :
    ∃ v', ty.settle n = .ok v' ∧ ty.project .preserve v' = .ok n
      ∧ ty.project form v' = .ok n := by
  obtain ⟨v', hr, hn⟩ := exists_restate_of_project hv h
  have hv' : Holds false ty v' := holds_of_restate hf hv hrank hr
  refine ⟨v', settle_of_restate hf hv hrank hr hn, hn, ?_⟩
  exact project_of_restate hv' (restate_of_restate hf hv hr) hn

/-- **What is written in a faithful form settles**, to a value that is written so again. -/
theorem exists_settle_of_project (hf : form.IsFaithful) {ty : Ty} {v : Val} {n : Node}
    (hv : Holds loaded ty v) (h : ty.project form v = .ok n) :
    ∃ v', ty.settle n = .ok v' ∧ ty.project .preserve v' = .ok n
      ∧ ty.project form v' = .ok n :=
  exists_settle_of_keepsRank hf.toIsStable hv (hf.keepsRank _) h

end Stable

end Ty

end Micheline
