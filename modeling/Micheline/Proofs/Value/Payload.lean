/-
Micheline/Proofs/Value/Payload.lean

What values keep as it was written: code, states of sapling, transactions and constants.
Whatever else a value is written as is literals, sequences and constructors of values
(`Ty.constructors`).  So what these have, and what their parts hand on to them
(`Node.IsHereditary`), whole values have if their payloads do (`Ty.hereditary_of_project`); and
the annotations of what a value is written as are those of its payloads
(`Ty.isSpaced_of_project`).
-/
import Micheline.Proofs.Node.Spacing
import Micheline.Proofs.Value.Preserve

namespace Micheline

/-- The names of the constructors of values. -/
def Ty.constructors : List String :=
  ["Unit", "True", "False", "Pair", "Left", "Right", "None", "Some", "Elt"]

/-- A property that literals have, that a sequence has exactly if its items have it, and that a
constructor of values has if its arguments do, also with one more argument in front. -/
structure Node.IsHereditary (P : Node → Prop) : Prop where
  literal : ∀ l : Literal, P l.node
  seq_iff : ∀ items, P (.seq items) ↔ ∀ n ∈ items, P n
  app : ∀ name args, name ∈ Ty.constructors → (∀ n ∈ args, P n) → P (.app name args)
  cons : ∀ name first args annots, P first → P (.prim name args annots) →
    P (.prim name (first :: args) annots)

theorem Node.isHereditary_isSpaced : IsHereditary IsSpaced where
  literal := isSpaced_literal
  seq_iff _ := isSpaced_seq_iff
  app _ _ _ h := isSpaced_app_iff.2 h
  cons _ _ _ _ hfirst h := by
    obtain ⟨hannots, hargs⟩ := isSpaced_prim_iff.1 h
    exact isSpaced_prim_iff.2 ⟨hannots, List.forall_mem_cons.2 ⟨hfirst, hargs⟩⟩

namespace Ty

/-- The expressions that a value keeps, from left to right. -/
def payloads : Ty → Val → List Node
  | .pair _ left right, .pair a b _ => payloads left a ++ payloads right b
  | .or _ left _, .left a => payloads left a
  | .or _ _ right, .right b => payloads right b
  | .option _ inner, .some a => payloads inner a
  | .list _ elem, .items values => values.flatMap (payloads elem)
  | .set _ elem, .items values => values.flatMap (payloads elem)
  | .map _ key value, .entries _ pairs =>
    pairs.flatMap fun p => payloads key p.1 ++ payloads value p.2
  | .bigMap _ key value, .entries _ pairs =>
    pairs.flatMap fun p => payloads key p.1 ++ payloads value p.2
  | .ticket _ _ paired, v => payloads paired v
  | .lambda _ _ _, .code n => [n]
  | .saplingState _ _, .code n => [n]
  | .saplingTransaction _ _ _, .code n => [n]
  | .constant _ _, .code n => [n]
  | _, _ => []

section Hereditary

variable {P : Node → Prop} {form : ValueForm}

/-- What is handed down to applications and lists holds of pairs in any notation. -/
theorem hereditary_writePair (hP : Node.IsHereditary P) {comb : Comb} {first second : Node}
    (h₁ : P first) (h₂ : P second) : P (writePair comb first second) := by
  have htwo : ∀ n ∈ [first, second], P n := by simp [h₁, h₂]
  have hpair : P (.app "Pair" [first, second]) := hP.app _ _ (by decide) htwo
  cases comb with
  | pair => exact hpair
  | seq => exact (hP.seq_iff _).2 htwo
  | joined =>
    -- the first member joins the notation of the second
    cases second with
    | seq items => exact (hP.seq_iff _).2 (List.forall_mem_cons.2 ⟨h₁, (hP.seq_iff _).1 h₂⟩)
    | prim name args annots => exact hP.cons _ _ _ _ h₁ h₂
    | _ => exact hpair

theorem hereditary_of_projectEntry (hP : Node.IsHereditary P) {key value : Val → Except Error Node}
    {p : Val × Val} {n : Node} (hk : ∀ m, key p.1 = .ok m → P m)
    (hv : ∀ m, value p.2 = .ok m → P m) (h : project.projectEntry key value p = .ok n) : P n := by
  rw [project.projectEntry] at h
  obtain ⟨k, h₁, h⟩ := bind_eq_ok_iff.1 h
  obtain ⟨v, h₂, h⟩ := bind_eq_ok_iff.1 h
  obtain rfl := pure_eq_ok_iff.1 h
  exact hP.app _ _ (by decide) (by simp [hk k h₁, hv v h₂])

/-- The entries of a map, where the payloads of its keys and values have the property. -/
theorem hereditary_of_mapM_projectEntry (hP : Node.IsHereditary P) {key value : Ty}
    {pairs : List (Val × Val)} {items : List Node}
    (ihk : ∀ p ∈ pairs, ∀ m, key.project form p.1 = .ok m → (∀ n ∈ key.payloads p.1, P n) → P m)
    (ihv : ∀ p ∈ pairs, ∀ m, value.project form p.2 = .ok m →
      (∀ n ∈ value.payloads p.2, P n) → P m)
    (h : pairs.mapM (project.projectEntry (key.project form) (value.project form)) = .ok items)
    (hs : ∀ n ∈ pairs.flatMap (fun p => key.payloads p.1 ++ value.payloads p.2), P n) :
    P (.seq items) := by
  refine (hP.seq_iff _).2 fun item hitem => ?_
  obtain ⟨p, hp, hpn⟩ := exists_of_mem_mapM h item hitem
  have hpay : ∀ n ∈ key.payloads p.1 ++ value.payloads p.2, P n := fun n hn =>
    hs n (List.mem_flatMap.2 ⟨p, hp, hn⟩)
  obtain ⟨hk, hv⟩ := List.forall_mem_append.1 hpay
  exact hereditary_of_projectEntry hP (fun m hm => ihk p hp m hm hk)
    (fun m hm => ihv p hp m hm hv) hpn

/-- The items of a list or set, likewise. -/
theorem hereditary_of_mapM_project (hP : Node.IsHereditary P) {elem : Ty} {values : List Val}
    {items : List Node}
    (ih : ∀ v ∈ values, ∀ m, elem.project form v = .ok m → (∀ n ∈ elem.payloads v, P n) → P m)
    (h : values.mapM (elem.project form) = .ok items)
    (hs : ∀ n ∈ values.flatMap elem.payloads, P n) : P (.seq items) := by
  refine (hP.seq_iff _).2 fun item hitem => ?_
  obtain ⟨v, hv, hvn⟩ := exists_of_mem_mapM h item hitem
  exact ih v hv item hvn fun n hn => hs n (List.mem_flatMap.2 ⟨v, hv, hn⟩)

/-- **What a value is written as has what its payloads have.** -/
theorem hereditary_of_project (hP : Node.IsHereditary P) {loaded : Bool} {ty : Ty} {v : Val}
    {n : Node} (hv : Holds loaded ty v) (h : ty.project form v = .ok n)
    (hs : ∀ m ∈ ty.payloads v, P m) : P n := by
  have hempty (name : String) (hname : name ∈ constructors) : P (.app name []) :=
    hP.app name [] hname nofun
  have hone {name : String} {m : Node} (hname : name ∈ constructors) (hm : P m) :
      P (.app name [m]) := hP.app name [m] hname (List.forall_mem_singleton.2 hm)
  induction hv generalizing n with
  | unit =>
    obtain rfl := Except.ok.inj h
    exact hempty "Unit" (by decide)
  | @bool i b =>
    cases b with
    | true =>
      obtain rfl := Except.ok.inj h
      exact hempty "True" (by decide)
    | false =>
      obtain rfl := Except.ok.inj h
      exact hempty "False" (by decide)
  | scalar _ | contract _ =>
    obtain ⟨l, -, h⟩ := bind_eq_ok_iff.1 h
    obtain rfl := pure_eq_ok_iff.1 h
    exact hP.literal l
  | pair _ _ _ iha ihb =>
    obtain ⟨hl, hr⟩ := List.forall_mem_append.1 hs
    obtain ⟨first, hfirst, h⟩ := bind_eq_ok_iff.1 h
    obtain ⟨second, hsecond, h⟩ := bind_eq_ok_iff.1 h
    obtain rfl := pure_eq_ok_iff.1 h
    exact hereditary_writePair hP (iha hfirst hl) (ihb hsecond hr)
  | left _ ih | right _ ih =>
    obtain ⟨m, hm, h⟩ := bind_eq_ok_iff.1 h
    obtain rfl := pure_eq_ok_iff.1 h
    exact hone (by decide) (ih hm hs)
  | none =>
    obtain rfl := Except.ok.inj h
    exact hempty "None" (by decide)
  | some _ ih =>
    obtain ⟨m, hm, h⟩ := bind_eq_ok_iff.1 h
    obtain rfl := pure_eq_ok_iff.1 h
    exact hone (by decide) (ih hm hs)
  | list _ ih | set _ _ ih =>
    obtain ⟨items, hitems, h⟩ := bind_eq_ok_iff.1 h
    obtain rfl := pure_eq_ok_iff.1 h
    exact hereditary_of_mapM_project hP (fun v hv _ => ih v hv) hitems hs
  | map _ _ _ ihk ihv =>
    obtain ⟨items, hitems, h⟩ := bind_eq_ok_iff.1 h
    obtain rfl := pure_eq_ok_iff.1 h
    exact hereditary_of_mapM_projectEntry hP (fun p hp _ => ihk p hp) (fun p hp _ => ihv p hp)
      hitems hs
  | bigMap _ _ _ ihk ihv =>
    rw [project_entries .bigMap (.inl rfl)] at h
    obtain ⟨items, hitems, h⟩ := bind_eq_ok_iff.1 h
    obtain rfl := pure_eq_ok_iff.1 h
    exact hereditary_of_mapM_projectEntry hP (fun p hp _ => ihk p hp) (fun p hp _ => ihv p hp)
      hitems hs
  | @pointer i key value id _ =>
    obtain rfl := Except.ok.inj h
    exact hP.literal (.int id)
  | @loaded i key value id pairs _ _ _ _ _ ihk ihv =>
    by_cases hp : pairs = []
    · subst hp
      obtain rfl := Except.ok.inj h
      exact hP.literal (.int id)
    · rw [project_entries .bigMap (.inr hp)] at h
      obtain ⟨items, hitems, h⟩ := bind_eq_ok_iff.1 h
      obtain rfl := pure_eq_ok_iff.1 h
      exact hereditary_of_mapM_projectEntry hP (fun p hp _ => ihk p hp) (fun p hp _ => ihv p hp)
        hitems hs
  | ticket _ ih => exact ih h hs
  | _ =>
    -- a payload is written as it is
    obtain rfl := Except.ok.inj h
    exact hs _ List.mem_cons_self

end Hereditary

/-- **Annotations come from payloads only.** -/
theorem isSpaced_of_project {form : ValueForm} {loaded : Bool} {ty : Ty} {v : Val} {n : Node}
    (hv : Holds loaded ty v) (h : ty.project form v = .ok n)
    (hs : ∀ m ∈ ty.payloads v, m.IsSpaced) : n.IsSpaced :=
  hereditary_of_project Node.isHereditary_isSpaced hv h hs

end Ty

end Micheline
