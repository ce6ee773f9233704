/-
Micheline/Proofs/Tree/Form.lean

Forms of trees.  What is entered for the values of a tree follows the schema of the tree, and
submitted to any tree with the same roots it gives values with the same readable form
(`Tree.submit_form`).

The values need not be the same after that: every pair is nested, in whatever notation it was
settled.
-/
import Micheline.Proofs.Form.Schema
import Micheline.Proofs.Form.Submission
import Micheline.Proofs.Tree.Reachable
import Micheline.Proofs.Value.Readable

namespace Micheline

/-! ### Values -/

namespace Typed

variable {t : Typed} {n : Node}

theorem readable_eq_of_mem_entries {key value : Ty} {pairs : List (Val × Val)}
    {x : Content × Literal}
    (hk : ∀ q ∈ pairs, x ∈ key.literals q.1 → Literal.readable x.1 x.2 = .ok x.2)
    (hv : ∀ q ∈ pairs, x ∈ value.literals q.2 → Literal.readable x.1 x.2 = .ok x.2)
    (hx : x ∈ pairs.flatMap fun q => key.literals q.1 ++ value.literals q.2) :
    Literal.readable x.1 x.2 = .ok x.2 := by
  obtain ⟨q, hq, hx⟩ := List.mem_flatMap.1 hx
  rcases List.mem_append.1 hx with hx | hx
  · exact hk q hq hx
  · exact hv q hq hx

/-- **The literals that can be entered are in readable form.** -/
theorem readable_eq_of_mem_literals {ty : Ty} {v : Val} (h : IsEnterable ⟨ty, v⟩)
    {x : Content × Literal} (hx : x ∈ ty.literals v) :
    Literal.readable x.1 x.2 = .ok x.2 := by
  have hheld : ty.Holds true v := h.held
  induction hheld with
  | scalar _ =>
    obtain rfl := List.mem_singleton.1 hx
    -- Every part of what can be entered can be entered, so the cases below only say which part
    -- the literal is in.
    exact readable_of_isWritten (isFormed_of_mem_formed h.hasForm) (h.written _ .refl)
  | contract _ =>
    obtain rfl := List.mem_singleton.1 hx
    exact readable_of_isWritten (isFormed_identifier .address) (h.written _ .refl)
  | pair _ _ _ iha ihb =>
    rcases List.mem_append.1 hx with hx | hx
    · exact iha (h.of_isPart (.single List.mem_cons_self)) hx
    · exact ihb (h.of_isPart (.single (List.mem_cons_of_mem _ List.mem_cons_self))) hx
  | left _ ih | right _ ih | some _ ih => exact ih (h.of_isPart (.single List.mem_cons_self)) hx
  | list _ ih | set _ _ ih =>
    obtain ⟨v, hv, hx⟩ := List.mem_flatMap.1 hx
    exact ih v hv (h.of_isPart (.single (List.mem_map_of_mem hv))) hx
  | map _ _ _ ihk ihv =>
    exact readable_eq_of_mem_entries (fun q hq => ihk q hq (h.of_isPart (isPart_key .map hq)))
      (fun q hq => ihv q hq (h.of_isPart (isPart_value .map hq))) hx
  | bigMap _ _ _ ihk ihv =>
    exact readable_eq_of_mem_entries (fun q hq => ihk q hq (h.of_isPart (isPart_key .bigMap hq)))
      (fun q hq => ihv q hq (h.of_isPart (isPart_value .bigMap hq))) hx
  | loaded => cases h.written _ .refl
  | ticket => cases h.hasForm
  | _ => cases hx

theorem IsEnterable.keepsRank (h : t.IsEnterable) :
    ValueForm.readable.KeepsRank (t.ty.literals t.val) := by
  intro x hx l hl
  obtain rfl : x.2 = l := Except.ok.inj ((readable_eq_of_mem_literals h hx).symm.trans hl)
  exact .refl _ _

/-- **The readable form of a value that can be entered settles**, and is written again. -/
theorem IsEnterable.exists_settle (h : t.IsEnterable) (hn : t.project .readable = .ok n) :
    ∃ v, t.ty.settle n = .ok v ∧ t.ty.project .readable v = .ok n := by
  obtain ⟨v, hsettle, -, hagain⟩ :=
    Ty.exists_settle_of_keepsRank isStable_readable h.held h.keepsRank hn
  exact ⟨v, hsettle, hagain⟩

end Typed

/-! ### Trees -/

namespace Tree

/-- What is entered in a form for the values of a tree.  A single root whose values are objects
stands for itself. -/
def form (t : Tree) : Json :=
  match t.current with
  | [r] => if r.ty.submitsAlone then r.form else .obj r.property
  | rs => .obj (rs.flatMap Typed.property)

/-- Trees of types with forms, whose values are written in full. -/
structure IsEnterable (t : Tree) : Prop where
  hasForm : ∀ ty ∈ t.roots, ty.HasForm
  names : (Ty.properNames t.roots).Nodup
  written : ∀ r ∈ t.current, ∀ p : Typed, p.IsPart r → p.IsWritten

variable {t u : Tree} {now : Int}

/-- The form of a tree is that of its only root, if this is an object of its own, or else one
object around the roots. -/
theorem form_cases (t : Tree) :
    (∃ r, t.current = [r] ∧ r.ty.submitsAlone = true ∧ t.form = r.form)
      ∨ ((∀ r, t.current = [r] → r.ty.submitsAlone = false)
        ∧ t.form = .obj (t.current.flatMap Typed.property)) := by
  rw [form]
  split
  next r hr =>
    cases halone : r.ty.submitsAlone with
    | true => exact .inl ⟨r, hr, halone, rfl⟩
    | false =>
      refine .inr ⟨fun r' hr' => ?_, ?_⟩
      · obtain rfl := List.head_eq_of_cons_eq (hr.symm.trans hr')
        exact halone
      · rw [hr, List.flatMap_singleton]
        rfl
  next hne => exact .inr ⟨fun r hr => absurd hr (hne r), rfl⟩

/-- What can be entered can be entered root by root. -/
theorem IsEnterable.forall_current (h : t.IsEnterable) (ht : t.IsFilled) :
    ∀ r ∈ t.current, r.IsEnterable := by
  obtain ⟨htys, hheld⟩ := ht.holds.forall_current
  intro r hr
  exact ⟨h.hasForm _ (htys ▸ List.mem_map_of_mem hr), hheld r hr, h.written r hr⟩

/-! ### Following the schema -/

/-- The roots in an object follow the schema of the object. -/
theorem exists_wrappedSchema (now : Int) (hroots : ∀ ty ∈ u.roots, ty.HasForm)
    (hnames : (Ty.properNames u.roots).Nodup) :
    ∃ s, u.wrappedSchema now = .ok s
      ∧ ∀ ts : List Typed, ts.map (·.ty) = u.roots → (∀ t ∈ ts, t.IsEnterable) →
        s.Follows (.obj (ts.flatMap Typed.property)) := by
  obtain ⟨props, hprops, hpropnames, hfollow⟩ :=
    Ty.exists_properties fun ty hty => Ty.exists_isDescribed now (hroots ty hty)
  refine ⟨_, bind_eq_ok_iff.2 ⟨props, hprops, rfl⟩, fun ts hts henterable => ?_⟩
  have hall := hfollow ts hts henterable
  split
  all_goals exact hall.follows (.inl rfl) rfl rfl rfl (hpropnames ▸ hnames)

/-- Roots that do not stand for themselves have the schema of an object around them. -/
theorem schema_eq_wrappedSchema (hroots : ∀ ty ∈ u.roots, ty.HasForm)
    (hwrapped : ∀ root, u.roots = [root] → root.submitsAlone = false) :
    u.schema now = u.wrappedSchema now := by
  rw [schema]
  split
  next root hroot =>
    have hmem : root ∈ u.roots := hroot ▸ List.mem_singleton_self root
    obtain ⟨s, hs⟩ := Ty.exists_isDescribed now (hroots root hmem)
    have hobject : s.isObject = false := hs.alone.trans (hwrapped root hroot)
    rw [hs.schema]
    show (if s.isObject = true then _ else _) = _
    rw [if_neg (by simp [hobject])]
  next => rfl

/-- **What is entered for the values of a tree follows the schema** of any tree with the same
roots. -/
theorem exists_schema (ht : t.IsFilled) (h : t.IsEnterable) (hu : u.roots = t.roots) :
    ∃ s, u.schema now = .ok s ∧ s.Follows t.form := by
  obtain ⟨htys, -⟩ := ht.holds.forall_current
  have hroots : ∀ ty ∈ u.roots, ty.HasForm := hu ▸ h.hasForm
  rcases form_cases t with ⟨r, hr, halone, hform⟩ | ⟨hwrapped, hform⟩
  · have hroot : u.roots = [r.ty] := by rw [hu, ← htys, hr, List.map_singleton]
    obtain ⟨s, hs⟩ := Ty.exists_isDescribed now (hroots r.ty (by simp [hroot]))
    refine ⟨s, ?_, hform ▸ hs.follows r.val (h.forall_current ht r (by simp [hr]))⟩
    rw [schema, hroot]
    refine bind_eq_ok_iff.2 ⟨s, hs.schema, ?_⟩
    rw [hs.alone, halone]
    rfl
  · obtain ⟨s, hs, hfollows⟩ := exists_wrappedSchema now hroots (hu ▸ h.names)
    refine ⟨s, ?_, hform ▸ hfollows t.current (htys.trans hu.symm) (h.forall_current ht)⟩
    rw [schema_eq_wrappedSchema hroots fun root hroot => ?_, hs]
    obtain ⟨r, hr, rfl⟩ := List.map_eq_singleton_iff.1 ((htys.trans hu.symm).trans hroot)
    exact hwrapped r hr

/-! ### Reading submissions -/

/-- What is entered for the values of a tree is read as the readable form of the values. -/
theorem exists_submitted (ht : t.IsFilled) (h : t.IsEnterable) (hu : u.roots = t.roots) :
    ∃ ns, u.submitted t.form = .ok ns ∧ t.current.mapM (Typed.project .readable) = .ok ns := by
  obtain ⟨htys, -⟩ := ht.holds.forall_current
  have hroots : u.roots = t.current.map (·.ty) := hu.trans htys.symm
  -- A tree wraps its roots just when the submission unwraps them: both ask the same of the types.
  have hread : ∀ r ∈ t.current, r.IsRead r.form := fun r hr => (h.forall_current ht r hr).isRead
  rw [submitted]
  rcases form_cases t with ⟨r, hr, halone, hform⟩ | ⟨hwrapped, hform⟩
  · rw [hr] at hroots hread ⊢
    rw [hform, hroots, if_pos ⟨rfl, by simp [halone]⟩]
    refine exists_mapM_map fun r' hr' => ?_
    obtain rfl := List.mem_singleton.1 hr'
    exact hread r' hr'
  · rw [hform, hroots, if_neg]
    · refine exists_mapM_map fun r hr => Typed.isReadMember_of_properties hr ?_ (hread r hr)
      rw [htys]
      exact h.names
    · rintro ⟨hone, hall⟩
      rw [List.length_map] at hone
      obtain ⟨r, hr⟩ := List.length_eq_one_iff.1 hone
      rw [hr] at hall
      simp [hwrapped r hr] at hall

/-- **Every value has a form.**  The values are those of types with forms, written in full.  What
is entered for them follows the schema of any tree with the same roots; and submitted to such
a tree it gives values with the same readable form. -/
theorem submit_form (ht : t.IsFilled) (h : t.IsEnterable) (hu : u.roots = t.roots) :
    (∀ now, ∃ s, u.schema now = .ok s ∧ s.Follows t.form)
      ∧ ∃ w ns, u.submit t.form = .ok w ∧ t.project .readable = .ok ns
        ∧ w.project .readable = .ok ns := by
  refine ⟨fun now => exists_schema ht h hu, ?_⟩
  obtain ⟨htys, -⟩ := ht.holds.forall_current
  obtain ⟨ns, hns, hproject⟩ := exists_submitted ht h hu
  have hagain : List.Forall₂ (fun root n => ∃ v, root.settle n = .ok v
      ∧ root.project .readable v = .ok n) u.roots ns := by
    rw [hu, ← htys, List.forall₂_map_left_iff]
    exact forall₂_of_mapM hproject fun r hr n hn => (h.forall_current ht r hr).exists_settle hn
  obtain ⟨w, hsettle, hwrite⟩ := exists_settle_of_forall₂ hagain
  have hsettled : t.settled = .ok t.current := by
    obtain ⟨vs, hvs, -⟩ := ht.holds
    rw [settled_eq hvs, current_eq hvs]
  refine ⟨w, ns, bind_eq_ok_iff.2 ⟨ns, hns, hsettle⟩, ?_, hwrite⟩
  exact bind_eq_ok_iff.2 ⟨t.current, hsettled, hproject⟩

/-- An address in an option, beside a big map from a number to the unit. -/
theorem submit_form_optional :
    let owner : Ty := .option ⟨1, 1, []⟩ (.scalar ⟨2, 2, []⟩ .address)
    let flags : Ty := .bigMap ⟨3, 1, []⟩ (.scalar ⟨4, 2, []⟩ .nat) (.unit ⟨5, 2, []⟩)
    let u : Tree := ⟨[.pair ⟨0, 0, []⟩ owner flags], none⟩
    ∃ text t, Tree.IsFilled t ∧ t.IsEnterable ∧ u.roots = t.roots
      ∧ t.form = .obj [
        ("@option_1", .obj [(branchKey, .str "some"), ("@address_2", .str text)]),
        ("@big_map_3", .arr [.obj [("@nat_4", .str "7")]])]
      ∧ (∀ now, ∃ s, u.schema now = .ok s ∧ s.Follows t.form)
      ∧ ∃ w ns, u.submit t.form = .ok w ∧ t.project .readable = .ok ns
        ∧ w.project .readable = .ok ns := by
  intro owner flags u
  obtain ⟨text, htext⟩ : ∃ text, Identifier.Address.ofBody (List.replicate 22 0) = .ok text :=
    ⟨_, rfl⟩
  have hbytes : Identifier.Role.address.toBytes text = .ok (List.replicate 22 0) := by
    obtain ⟨data, hdata, h⟩ := bind_eq_ok_iff.1 (Literal.readable_default rfl htext).2.2
    obtain rfl := Literal.bytes.inj (pure_eq_ok_iff.1 h)
    exact lift_eq_ok_iff.1 hdata
  have hforms : ∀ ty ∈ u.roots, ty.HasForm := by decide
  have hnames : (Ty.properNames u.roots).Nodup := by decide
  let v : Val := .pair (.some (.literal (.string text)))
    (.entries none [(.literal (.int 7), .unit)]) .pair
  let t : Tree := ⟨u.roots, some [v]⟩
  have hsettle : u.settle [.app "Pair" [.app "Some" [.string text],
      .seq [.app "Elt" [.int 7, .app "Unit" []]]]] = .ok t := rfl
  have ht : t.IsFilled := .settle hsettle
  have h : t.IsEnterable := by
    refine ⟨hforms, hnames, List.forall_mem_singleton.2 (Typed.forall_isPart_iff.2 ⟨trivial, ?_⟩)⟩
    refine List.forall_mem_cons.2 ⟨Typed.forall_isPart_iff.2 ⟨trivial, ?_⟩,
      List.forall_mem_singleton.2 (Typed.forall_isPart_iff.2 ⟨rfl, ?_⟩)⟩
    · exact List.forall_mem_singleton.2
        (Typed.forall_isPart_iff.2 ⟨⟨text, _, rfl, hbytes⟩, nofun⟩)
    · exact List.forall_mem_cons.2 ⟨Typed.forall_isPart_iff.2 ⟨trivial, nofun⟩,
        List.forall_mem_singleton.2 (Typed.forall_isPart_iff.2 ⟨trivial, nofun⟩)⟩
  refine ⟨text, t, ht, h, rfl, ?_, submit_form ht h rfl⟩
  have hmembers : Typed.members (.pair ⟨0, 0, []⟩ owner flags) v
      = [⟨owner, .some (.literal (.string text))⟩,
        ⟨flags, .entries none [(.literal (.int 7), .unit)]⟩] := rfl
  show Ty.form (.pair ⟨0, 0, []⟩ owner flags) v = _
  rw [Ty.form_pair, hmembers]
  simp only [List.flatMap_cons, List.flatMap_nil, Typed.property, Typed.form, owner, flags, Ty.form,
    List.map_cons, List.map_nil]
  rfl

end Tree

end Micheline
