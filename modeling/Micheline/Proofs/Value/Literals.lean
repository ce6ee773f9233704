/-
Micheline/Proofs/Value/Literals.lean

The literals in a value.  They are all that a form of writing looks at: a value is written if
each of them has the form (`Ty.exists_project_of_literals`).

Literals may be replaced, each by one of the same contents (`Ty.mapLiterals`).
-/
import Micheline.Proofs.Value.Preserve

namespace Micheline.Ty

/-- The literals in a value, from left to right, each with what it has to be. -/
def literals : Ty → Val → List (Content × Literal)
  | .scalar _ kind, .literal l => [(kind.content, l)]
  | .contract _ _, .literal l => [(.identifier .address, l)]
  | .pair _ left right, .pair a b _ => literals left a ++ literals right b
  | .or _ left _, .left a => literals left a
  | .or _ _ right, .right b => literals right b
  | .option _ inner, .some a => literals inner a
  | .list _ elem, .items values => values.flatMap (literals elem)
  | .set _ elem, .items values => values.flatMap (literals elem)
  | .map _ key value, .entries _ pairs =>
    pairs.flatMap fun p => literals key p.1 ++ literals value p.2
  | .bigMap _ key value, .entries _ pairs =>
    pairs.flatMap fun p => literals key p.1 ++ literals value p.2
  | .ticket _ _ paired, v => literals paired v
  | _, _ => []

/-! ### Other literals -/

/-- A value with other literals. -/
def mapLiterals (f : Content → Literal → Literal) : Ty → Val → Val
  | .scalar _ kind, .literal l => .literal (f kind.content l)
  | .contract _ _, .literal l => .literal (f (.identifier .address) l)
  | .pair _ left right, .pair a b comb => .pair (mapLiterals f left a) (mapLiterals f right b) comb
  | .or _ left _, .left a => .left (mapLiterals f left a)
  | .or _ _ right, .right b => .right (mapLiterals f right b)
  | .option _ inner, .some a => .some (mapLiterals f inner a)
  | .list _ elem, .items values => .items (values.map fun v => mapLiterals f elem v)
  | .set _ elem, .items values => .items (values.map fun v => mapLiterals f elem v)
  | .map _ key value, .entries pointer pairs =>
    .entries pointer (pairs.map fun p => (mapLiterals f key p.1, mapLiterals f value p.2))
  | .bigMap _ key value, .entries pointer pairs =>
    .entries pointer (pairs.map fun p => (mapLiterals f key p.1, mapLiterals f value p.2))
  | .ticket _ _ paired, v => mapLiterals f paired v
  | _, v => v

/-- The literals of a changed value are the changed literals. -/
theorem literals_mapLiterals (f : Content → Literal → Literal) (ty : Ty) (v : Val) :
    ty.literals (ty.mapLiterals f v) = (ty.literals v).map fun x => (x.1, f x.1 x.2) := by
  fun_induction mapLiterals f ty v with
  | case1 i kind l | case2 i param l => rfl
  | case3 i l r a b comb iha ihb => rw [literals, literals, iha, ihb, List.map_append]
  | case4 i l r a ih | case5 i l r b ih | case6 i t a ih => exact ih
  | case7 i elem values ih | case8 i elem values ih =>
    rw [literals, literals, List.flatMap_map, List.map_flatMap]
    exact congrArg (List.flatMap · values) (funext ih)
  | case9 i key value pointer pairs ihk ihv | case10 i key value pointer pairs ihk ihv =>
    simp only [literals, List.flatMap_map, List.map_flatMap, ihk, ihv, List.map_append]
  | case11 i content paired v ih => exact ih
  | case12 => simp [literals]

theorem map_eq_self {α : Type} {as : List α} {f : α → α} (h : ∀ a ∈ as, f a = a) :
    as.map f = as :=
  (List.map_congr_left h).trans (List.map_id' as)

theorem map_mapLiterals_eq_self {f : Content → Literal → Literal} {elem : Ty} {values : List Val}
    (ih : ∀ v, (∀ x ∈ elem.literals v, f x.1 x.2 = x.2) → elem.mapLiterals f v = v)
    (h : ∀ x ∈ values.flatMap elem.literals, f x.1 x.2 = x.2) :
    values.map (fun v => elem.mapLiterals f v) = values :=
  map_eq_self fun v hv => ih v fun x hx => h x (List.mem_flatMap.2 ⟨v, hv, hx⟩)

theorem map_mapEntry_eq_self {f : Content → Literal → Literal} {key value : Ty}
    {pairs : List (Val × Val)}
    (ihk : ∀ p : Val × Val, (∀ x ∈ key.literals p.1, f x.1 x.2 = x.2) →
      key.mapLiterals f p.1 = p.1)
    (ihv : ∀ p : Val × Val, (∀ x ∈ value.literals p.2, f x.1 x.2 = x.2) →
      value.mapLiterals f p.2 = p.2)
    (h : ∀ x ∈ pairs.flatMap (fun p => key.literals p.1 ++ value.literals p.2),
      f x.1 x.2 = x.2) :
    pairs.map (fun p => (key.mapLiterals f p.1, value.mapLiterals f p.2)) = pairs := by
  apply map_eq_self
  intro p hp
  obtain ⟨hk, hv⟩ := List.forall_mem_append.1 fun x hx => h x (List.mem_flatMap.2 ⟨p, hp, hx⟩)
  rw [ihk p hk, ihv p hv]

/-- A value stays if its literals do. -/
theorem mapLiterals_eq_self {f : Content → Literal → Literal} {ty : Ty} {v : Val}
    (h : ∀ x ∈ ty.literals v, f x.1 x.2 = x.2) : ty.mapLiterals f v = v := by
  fun_induction mapLiterals f ty v with
  | case1 i kind l | case2 i param l => exact congrArg Val.literal (h _ List.mem_cons_self)
  | case3 i l r a b comb iha ihb =>
    obtain ⟨ha, hb⟩ := List.forall_mem_append.1 h
    rw [iha ha, ihb hb]
  | case4 i l r a ih | case5 i l r b ih | case6 i t a ih => rw [ih h]
  | case7 i elem values ih | case8 i elem values ih => rw [map_mapLiterals_eq_self ih h]
  | case9 i key value pointer pairs ihk ihv | case10 i key value pointer pairs ihk ihv =>
    rw [map_mapEntry_eq_self ihk ihv h]
  | case11 i content paired v ih => exact ih h
  | case12 => rfl

/-! ### Writing -/

section Writing

variable {form : ValueForm}

/-- Each of the literals can be written in a form. -/
def LiteralsHave (form : ValueForm) (ls : List (Content × Literal)) : Prop :=
  ∀ p ∈ ls, ∃ l, form.literal p.1 p.2 = .ok l

/-- The entries of a map are written if their literals are. -/
theorem exists_projectEntries_of_literals {key value : Ty} {pairs : List (Val × Val)}
    (ihk : ∀ p ∈ pairs, LiteralsHave form (key.literals p.1) → ∃ n, key.project form p.1 = .ok n)
    (ihv : ∀ p ∈ pairs, LiteralsHave form (value.literals p.2) →
      ∃ n, value.project form p.2 = .ok n)
    (h : LiteralsHave form (pairs.flatMap fun p => key.literals p.1 ++ value.literals p.2)) :
    ∃ items, pairs.mapM (project.projectEntry (key.project form) (value.project form))
      = .ok items := by
  apply exists_mapM
  intro p hp
  have hp' : LiteralsHave form (key.literals p.1 ++ value.literals p.2) :=
    fun q hq => h q (List.mem_flatMap.2 ⟨p, hp, hq⟩)
  obtain ⟨hk, hv⟩ := List.forall_mem_append.1 hp'
  obtain ⟨k, hk⟩ := ihk p hp hk
  obtain ⟨v, hv⟩ := ihv p hp hv
  refine ⟨.app "Elt" [k, v], ?_⟩
  rw [project.projectEntry, hk, hv]
  rfl

/-- **A value is written if its literals are.** -/
theorem exists_project_of_literals {loaded : Bool} {ty : Ty} {v : Val} (hv : Holds loaded ty v)
    (h : LiteralsHave form (ty.literals v)) : ∃ n, ty.project form v = .ok n := by
  induction hv with
  | @bool i b => cases b <;> exact ⟨_, rfl⟩
  | scalar _ | contract _ =>
    obtain ⟨l, hl⟩ := h _ List.mem_cons_self
    exact ⟨l.node, by rw [project, hl]; rfl⟩
  | pair _ _ _ iha ihb =>
    obtain ⟨ha, hb⟩ := List.forall_mem_append.1 h
    obtain ⟨first, hfirst⟩ := iha ha
    obtain ⟨second, hsecond⟩ := ihb hb
    exact ⟨_, by rw [project, hfirst, hsecond]; rfl⟩
  | left _ ih =>
    obtain ⟨n, hn⟩ := ih h
    exact ⟨.app "Left" [n], by rw [project, hn]; rfl⟩
  | right _ ih =>
    obtain ⟨n, hn⟩ := ih h
    exact ⟨.app "Right" [n], by rw [project, hn]; rfl⟩
  | some _ ih =>
    obtain ⟨n, hn⟩ := ih h
    exact ⟨.app "Some" [n], by rw [project, hn]; rfl⟩
  | @list i elem values _ ih | @set i elem values _ _ ih =>
    have hvalues : ∀ v ∈ values, ∃ n, elem.project form v = .ok n :=
      fun v hv => ih v hv fun p hp => h p (List.mem_flatMap.2 ⟨v, hv, hp⟩)
    obtain ⟨items, hitems⟩ := exists_mapM hvalues
    exact ⟨.seq items, by rw [project, hitems]; rfl⟩
  | map _ _ _ ihk ihv =>
    obtain ⟨items, hitems⟩ := exists_projectEntries_of_literals ihk ihv h
    exact ⟨.seq items, by rw [project, hitems]; rfl⟩
  | bigMap _ _ _ ihk ihv =>
    obtain ⟨items, hitems⟩ := exists_projectEntries_of_literals ihk ihv h
    exact ⟨.seq items, by rw [project_entries .bigMap (.inl rfl), hitems]; rfl⟩
  | @loaded i key value id pairs _ _ _ _ _ ihk ihv =>
    obtain ⟨items, hitems⟩ := exists_projectEntries_of_literals ihk ihv h
    -- with entries the pointer is not written
    rcases pairs with - | ⟨p, pairs⟩
    · exact ⟨.int id, rfl⟩
    · exact ⟨.seq items, by rw [project_entries .bigMap (.inr (List.cons_ne_nil _ _)), hitems]; rfl⟩
  | ticket _ ih => exact ih h
  | _ => exact ⟨_, rfl⟩

end Writing

end Micheline.Ty
