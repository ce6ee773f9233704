/-
Micheline/Proofs/Tree/Submitted.lean

Trees that took a submission can be used (`Tree.submit_usable`): their values are written in
every form, have bytes, can be packed and have an order.
-/
import Micheline.Proofs.Form.Accepted
import Micheline.Proofs.Tree.Reachable

namespace Micheline

open Submission Ty

namespace Typed

/-- A value without code that is held, and whose literals are as a form takes them. -/
structure IsSubmitted (r : Typed) : Prop where
  plain : r.ty.IsPlain
  held : r.ty.Holds false r.val
  accepted : r.ty.IsAccepted r.val

variable {r r' : Typed}

theorem IsSubmitted.exists_project (h : r.IsSubmitted) (form : ValueForm) :
    ∃ n, r.project form = .ok n :=
  exists_project_of_literals h.held fun x hx => (h.accepted x hx).exists_literal form

/-- **Submitted values of one comparable type have an order.** -/
theorem IsSubmitted.exists_compare (h : r.IsSubmitted) (h' : r'.IsSubmitted) (hty : r.ty = r'.ty)
    (hcomparable : r.ty.isComparable = true) : ∃ o, r.compare r' = .ok o := by
  obtain ⟨ty, a⟩ := r
  obtain ⟨ty', b⟩ := r'
  obtain rfl : ty = ty' := hty
  refine (compares hcomparable h.held h'.held).resolve_right fun hnot => hnot.1 ⟨?_, ?_⟩
  · exact fun x hx => (h.accepted x hx).decodes
  · exact fun x hx => (h'.accepted x hx).decodes

end Typed

namespace Tree

variable {t u w w' : Tree} {data data' : Json}

/-- Each root is given an expression that it accepts. -/
theorem forall₂_of_submitted {ns : List Node} (hplain : ∀ root ∈ t.roots, root.IsPlain)
    (h : t.submitted data = .ok ns) :
    List.Forall₂ (fun root n => root.takesWhole n = true ∧ root.IsPlain ∧ root.IsAccepting n)
      t.roots ns := by
  rw [submitted] at h
  split at h
  next =>
    refine forall₂_of_mapM h fun root hroot n hn => ?_
    have hroot := hplain root hroot
    exact ⟨takesWhole_of_submit hroot hn, hroot, isAccepting_of_submit hroot data n hn⟩
  next =>
    split at h
    next ms _ =>
      refine forall₂_of_mapM h fun root hroot n hn => ?_
      have hroot := hplain root hroot
      exact ⟨takesWhole_of_member hroot hn, hroot,
        isAccepting_of_member (isAccepting_of_submit hroot) hn⟩
    next => cases h

/-- **What a tree takes from a form**: values of its roots, whose literals are as a form takes
them. -/
theorem isSubmitted_of_submit (hplain : ∀ root ∈ t.roots, root.IsPlain)
    (h : t.submit data = .ok w) :
    w.settled = .ok w.current ∧ w.current.map (·.ty) = t.roots
      ∧ ∀ r ∈ w.current, r.IsSubmitted := by
  obtain ⟨ns, hns, h⟩ := bind_eq_ok_iff.1 h
  have hroots := forall₂_of_submitted hplain hns
  -- every expression is a whole value, so none is taken for the only item of its root
  rw [settle, arrange_of_takesWhole (hroots.imp fun _ _ hroot => hroot.1)] at h
  obtain ⟨ms, hms, h⟩ := bind_eq_ok_iff.1 h
  obtain rfl := Except.ok.inj hms
  obtain ⟨values, hvalues, h⟩ := bind_eq_ok_iff.1 h
  obtain rfl := pure_eq_ok_iff.1 h
  have hsubmitted : List.Forall₂ (fun ty v => Typed.IsSubmitted ⟨ty, v⟩) t.roots values :=
    forall₂_of_settle_roots hroots hvalues fun root n v hroot hv =>
      ⟨hroot.2.1, Ty.holds_of_settle hv, hroot.2.2 v hv⟩
  have hcurrent : current { t with values := some values } = List.zipWith Typed.mk t.roots values :=
    current_eq rfl
  rw [settled_eq rfl, hcurrent]
  obtain ⟨htys, hheld⟩ := zipWith_of_forall₂ hsubmitted
  exact ⟨rfl, htys, hheld⟩

/-- The expressions that submitted values are written as, and their codes. -/
theorem exists_project_of_submit (hplain : ∀ root ∈ t.roots, root.IsPlain)
    (h : t.submit data = .ok w) (form : ValueForm) :
    ∃ ns, w.project form = .ok ns ∧ ∀ n ∈ ns, n.HasCodes := by
  obtain ⟨hsettled, -, hsubmitted⟩ := isSubmitted_of_submit hplain h
  obtain ⟨ns, hns⟩ := exists_mapM fun r hr => (hsubmitted r hr).exists_project form
  refine ⟨ns, bind_eq_ok_iff.2 ⟨_, hsettled, hns⟩, fun n hn => ?_⟩
  obtain ⟨r, hr, hrn⟩ := exists_of_mem_mapM hns n hn
  exact hasCodes_of_project (hsubmitted r hr).plain (hsubmitted r hr).held hrn

/-- Packing is packing one expression. -/
theorem exists_pack_eq {ns : List Node} (h : t.project .optimized = .ok ns)
    (hcodes : ∀ n ∈ ns, n.HasCodes) :
    ∃ n : Node, n.HasCodes ∧ t.pack = lift .binary (Binary.pack n) := by
  rw [pack, h]
  rcases ns with - | ⟨n, - | ⟨m, rest⟩⟩
  · exact ⟨.seq [], .seq hcodes, rfl⟩
  · exact ⟨n, hcodes n List.mem_cons_self, rfl⟩
  · exact ⟨.seq (n :: m :: rest), .seq hcodes, rfl⟩

/-- Submitted values of comparable types are compared root by root, and no comparison fails. -/
theorem exists_compareRoots {rs rs' : List Typed} (htys : rs.map (·.ty) = rs'.map (·.ty))
    (hcomparable : ∀ r ∈ rs, r.ty.isComparable = true) (hrs : ∀ r ∈ rs, r.IsSubmitted)
    (hrs' : ∀ r ∈ rs', r.IsSubmitted) : ∃ o, compareRoots (rs.zip rs') = .ok o := by
  induction rs generalizing rs' with
  | nil => exact ⟨.eq, rfl⟩
  | cons r rs ih =>
    obtain ⟨r', rs', rfl, hty, htys⟩ := List.map_eq_cons_iff.1 htys.symm
    obtain ⟨hcomparable₁, hcomparable⟩ := List.forall_mem_cons.1 hcomparable
    obtain ⟨hr, hrs⟩ := List.forall_mem_cons.1 hrs
    obtain ⟨hr', hrs'⟩ := List.forall_mem_cons.1 hrs'
    obtain ⟨o, ho⟩ := hr.exists_compare hr' hty.symm hcomparable₁
    rw [List.zip_cons_cons, compareRoots, ho]
    cases o with
    | lt => exact ⟨.lt, rfl⟩
    | eq => exact ih htys.symm hcomparable hrs hrs'
    | gt => exact ⟨.gt, rfl⟩

/-- Submitted values of the same comparable roots have an order. -/
theorem exists_compare_of_submit (hplain : ∀ root ∈ t.roots, root.IsPlain)
    (hcomparable : ∀ root ∈ t.roots, root.isComparable = true) (h : t.submit data = .ok w)
    (hu : u.roots = t.roots) (h' : u.submit data' = .ok w') : ∃ o, w.compare w' = .ok o := by
  obtain ⟨hsettled, htys, hsubmitted⟩ := isSubmitted_of_submit hplain h
  obtain ⟨hsettled', htys', hsubmitted'⟩ := isSubmitted_of_submit (hu ▸ hplain) h'
  have hsame : w.current.map (·.ty) = w'.current.map (·.ty) := by rw [htys, htys', hu]
  have hlength : w.current.length = w'.current.length := by
    simpa using congrArg List.length hsame
  obtain ⟨o, ho⟩ := exists_compareRoots hsame
    (fun r hr => hcomparable _ (htys ▸ List.mem_map_of_mem hr)) hsubmitted hsubmitted'
  refine ⟨o, ?_⟩
  rw [compare, hsettled, hsettled']
  show (if w.current.length ≠ w'.current.length then _ else _) = _
  rw [if_neg (not_not_intro hlength)]
  exact ho

/-- **What a form takes can be used.**  The roots are of types without code.  If a submission is
taken, every literal of the values has every form, and so have the values; they have bytes and
can be packed, unless a length does not fit in four bytes; and if the types are comparable,
they have an order with whatever else the same types take.  If a submission is not taken, the
tree stays as it was. -/
theorem submit_usable (hplain : ∀ root ∈ t.roots, root.IsPlain) :
    (∀ w, t.submit data = .ok w →
        (∀ r ∈ w.current, ∀ x ∈ r.ty.literals r.val, ∀ form : ValueForm,
          ∃ l, form.literal x.1 x.2 = .ok l)
        ∧ (∀ form, ∃ ns, w.project form = .ok ns)
        ∧ ((∃ b, w.encode = .ok b) ∨ w.encode = .error (.binary .lengthOverflow))
        ∧ ((∃ b, w.pack = .ok b) ∨ w.pack = .error (.binary .lengthOverflow))
        ∧ ((∀ root ∈ t.roots, root.isComparable = true) → ∀ (u : Tree) data' w',
          u.roots = t.roots → u.submit data' = .ok w' → ∃ o, w.compare w' = .ok o))
      ∧ ∀ e, t.submit data = .error e → t.step (.submit data) = t := by
  refine ⟨fun w h => ?_, fun e h => ?_⟩
  -- Bytes come of the optimized form; its only names are those of types, which have codes, so
  -- nothing but a length can fail.
  · obtain ⟨ns, hns, hcodes⟩ := exists_project_of_submit hplain h .optimized
    refine ⟨fun r hr x hx form => ?_, fun form => ?_, ?_, ?_, ?_⟩
    · obtain ⟨-, -, hsubmitted⟩ := isSubmitted_of_submit hplain h
      exact ((hsubmitted r hr).accepted x hx).exists_literal form
    · obtain ⟨ms, hms, -⟩ := exists_project_of_submit hplain h form
      exact ⟨ms, hms⟩
    · rw [encode, hns]
      exact (Binary.onlyOverflows_encodeDocument hcodes).lift_cases
    · obtain ⟨n, hn, hpack⟩ := exists_pack_eq hns hcodes
      rw [hpack]
      exact (Binary.onlyOverflows_pack hn).lift_cases
    · exact fun hcomparable u data' w' hu h' =>
        exists_compare_of_submit hplain hcomparable h hu h'
  · exact congrArg Prod.snd (outcome_settling_of_error h)

/-- Two points in time, one entered as a text and one as seconds. -/
theorem submit_usable_moments :
    let t : Tree := ⟨[.scalar ⟨0, 0, ["%due"]⟩ .timestamp], none⟩
    ∃ w w', t.submit (.obj [("due", .str "1970-01-01T00:00:05Z")]) = .ok w
      ∧ t.submit (.obj [("due", .num (.int 7))]) = .ok w'
      ∧ (∀ form, ∃ ns, w.project form = .ok ns) ∧ (∃ o, w.compare w' = .ok o)
      ∧ t.step (.submit (.obj [])) = t := by
  intro t
  have hplain : ∀ root ∈ t.roots, root.IsPlain := List.forall_mem_singleton.2 trivial
  have hparse : Calendar.Timestamp.parse "1970-01-01T00:00:05Z" = .ok 5 :=
    Calendar.Timestamp.parse_of_text? rfl (by decide)
  have hread (data : Json) (n : Node) (v : Val)
      (hn : literal (.scalar ⟨0, 0, ["%due"]⟩ .timestamp) .time data = .ok n)
      (hv : (Ty.scalar ⟨0, 0, ["%due"]⟩ .timestamp).settle n = .ok v) :
      t.submit (.obj [("due", data)]) = .ok ⟨t.roots, some [v]⟩ := by
    have hsubmit : (Ty.scalar ⟨0, 0, ["%due"]⟩ .timestamp).submit data = .ok n := by
      rw [Ty.submit]
      exact hn
    have hsubmitted : t.submitted (.obj [("due", data)]) = .ok [n] :=
      mapM_eq_ok_iff.2 (.cons hsubmit .nil)
    exact bind_eq_ok_iff.2 ⟨[n], hsubmitted, bind_eq_ok_iff.2 ⟨[n], rfl,
      bind_eq_ok_iff.2 ⟨[v], mapM_eq_ok_iff.2 (.cons hv .nil), rfl⟩⟩⟩
  have htext := hread (.str "1970-01-01T00:00:05Z") (.string "1970-01-01T00:00:05Z")
    (.literal (.string "1970-01-01T00:00:05Z"))
    (bind_eq_ok_iff.2 ⟨_, checked_of_parse hparse, rfl⟩) rfl
  have hseconds := hread (.num (.int 7)) (.int 7) (.literal (.int 7)) rfl rfl
  obtain ⟨-, hforms, -, -, hcompare⟩ := (submit_usable hplain).1 _ htext
  exact ⟨_, _, htext, hseconds, hforms, hcompare (by decide) t _ _ rfl hseconds,
    (submit_usable hplain).2 _ rfl⟩

end Tree

end Micheline
