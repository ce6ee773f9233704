/-
Micheline/Proofs/Value/Gone.lean

What a presentation beside an earlier value says of that value.  It can be shown as well
(`Ty.exists_present_of_diff`), and what is gone is, at any depth, a child of its presentation at
the corresponding place (`Ty.exists_of_deleted`).
-/
import Micheline.Proofs.Value.Current

namespace Micheline.Ty

variable {loaded : Bool}

/-- What a leaf shows makes its node. -/
theorem exists_shell_of_shown {ty : Ty} {w : Val} {o : Option Shown} (hty : ty.isLeaf = true)
    (hw : ty.Holds loaded w) (h : ty.shown w = .ok o) : ∃ s, ty.shell w = .ok s := by
  cases hw with
  | unit | bool => exact ⟨_, rfl⟩
  | scalar | contract => exact exists_return_iff.2 ⟨o, h⟩
  | lambda | saplingState | saplingTransaction | constant => exact ⟨_, rfl⟩
  | _ => cases hty

/-- The earlier value has a node if it is looked at. -/
theorem exists_shell_of_shellDiff {ty : Ty} {v w : Val} {d : Presentation}
    (hw : ty.Holds loaded w) (h : ty.shellDiff v w = .ok d) : ∃ s, ty.shell w = .ok s := by
  induction ty generalizing v w d with
  | pair i l r | or i l r => exact ⟨_, rfl⟩
  | option i t =>
    cases hw with
    | none => exact ⟨_, rfl⟩
    | some _ => exact ⟨_, rfl⟩
  | list i elem | set i elem | map i key value => exact ⟨_, rfl⟩
  | bigMap i key value =>
    obtain ⟨pointer, pairs, rfl⟩ := exists_entries_of_holds hw
    exact ⟨_, rfl⟩
  | ticket i content paired _ ih =>
    obtain ⟨d', hd', -⟩ := bind_eq_ok_iff.1 h
    cases hw with
    | ticket hw => exact exists_return_iff.2 (ih hw hd')
  | _ =>
    obtain ⟨-, -, o, -, -, ho, -⟩ := (shellDiff_leaf_eq_ok_iff rfl).1 h
    exact exists_shell_of_shown rfl hw ho

/-- The piece that was there before can be shown if the child can. -/
theorem exists_present_old {slot : Slot} {c : Presentation} {y : Piece} (h : slot.child = .ok c)
    (hy : slot.old? = some y) (hsound : slot.Sound)
    (ih : ∀ x m, slot = .both x y → x.part.diff y.part = .ok m → ∃ p, y.part.present = .ok p) :
    ∃ p, y.present = .ok p := by
  cases slot with
  | both x y' =>
    obtain rfl := Option.some.inj hy
    obtain ⟨-, hlabel⟩ := hsound
    obtain ⟨m, hm, hc⟩ := bind_eq_ok_iff.1 h
    obtain ⟨p, hp⟩ := ih x m rfl hm
    obtain ⟨q, hq⟩ := hlabel.exists_apply hc p
    exact ⟨q, bind_eq_ok_iff.2 ⟨p, hp, hq⟩⟩
  | same x y' =>
    obtain rfl := Option.some.inj hy
    obtain ⟨hty, hlabel, heq⟩ := hsound
    obtain ⟨p, hp, hc⟩ := bind_eq_ok_iff.1 h
    -- The new one was presented in place of the old, but the two are equal.
    obtain ⟨p', hp'⟩ := exists_present_of_equal (.of_compare heq) ⟨p, hp⟩
    obtain ⟨q, hq⟩ := hlabel.exists_apply hc p'
    rw [hty] at hp'
    exact ⟨q, bind_eq_ok_iff.2 ⟨p', hp', hq⟩⟩
  | fresh x => cases hy
  | gone y' =>
    obtain rfl := Option.some.inj hy
    obtain ⟨q, hq, -⟩ := exists_present_of_gone h
    exact ⟨q, hq⟩

/-- **Beside what can be shown the earlier value can be shown as well.** -/
theorem exists_present_of_diff {ty : Ty} {v w : Val} {m : Presentation} (hv : ty.Holds loaded v)
    (hw : ty.Holds loaded w) (h : ty.diff v ty w = .ok m) : ∃ p, ty.present w = .ok p := by
  obtain ⟨d, ss, cs, hd, hss, hcs, rfl⟩ := (diff_eq_ok_iff hv hw).1 h
  have hcover := Slot.cover_slots hv hw hss
  obtain ⟨s, hs⟩ := exists_shell_of_shellDiff hw hd
  -- Every old piece is in a slot, and the children of slots were made.
  have hpieces : ∀ y ∈ ty.pieces w, ∃ p, y.present = .ok p := by
    intro y hy
    obtain ⟨slot, hslot, hold⟩ := (hcover.old y).1 hy
    obtain ⟨c, -, hc⟩ := exists_of_mem_of_mapM hcs slot hslot
    refine exists_present_old hc hold (hcover.sound slot hslot) ?_
    rintro x m rfl hm
    obtain ⟨hty, hsize, hheld, hheld'⟩ := holds_of_both hv hw hss hslot
    rw [Typed.diff, ← hty] at hm
    rw [Typed.present, ← hty]
    exact exists_present_of_diff hheld hheld' hm
  obtain ⟨cs', hcs'⟩ := exists_mapM hpieces
  exact ⟨_, (present_eq_ok_iff hw).2 ⟨s, cs', hs, hcs', rfl⟩⟩
termination_by ty.size

/-- A child that is marked as deleted is that of a piece that is gone. -/
theorem exists_gone_of_shows {slot : Slot} {c : Presentation} (hshows : slot.Shows c)
    (hc : c.change = some .delete) : ∃ y, slot = .gone y := by
  cases slot with
  | gone y => exact ⟨y, rfl⟩
  | _ => exact absurd hc hshows.2

/-- A child that is gone is a child of the earlier value's presentation. -/
theorem unmarked_mem_children {ty : Ty} {v w : Val} {m p c : Presentation}
    (hv : ty.Holds loaded v) (hw : ty.Holds loaded w) (h : ty.diff v ty w = .ok m)
    (hp : ty.present w = .ok p) (hc : c ∈ m.children) (hdelete : c.change = some .delete) :
    c.unmarked ∈ p.children := by
  obtain ⟨d, ss, cs, hd, hss, hcs, rfl⟩ := (diff_eq_ok_iff hv hw).1 h
  obtain ⟨s, ps, -, hps, rfl⟩ := (present_eq_ok_iff hw).1 hp
  obtain ⟨slot, hslot, hchild⟩ := exists_of_mem_mapM hcs c hc
  have hshows := shows_of_child hv hw hss hslot hchild
    fun _ hx hy hm => present_of_diff hx hy hm
  obtain ⟨y, rfl⟩ := exists_gone_of_shows hshows hdelete
  obtain ⟨q, hq, rfl⟩ := exists_present_of_gone hchild
  have hy : y ∈ ty.pieces w := (mem_pieces_of_slots hv hw hss hslot).2 y rfl
  obtain ⟨q', hmem, hq'⟩ := exists_of_mem_of_mapM hps y hy
  obtain rfl := Except.ok.inj (hq.symm.trans hq')
  have hplain : q.unmarked = q := isPlain_of_piece (holds_of_mem_pieces hw hy) hq
  rw [Presentation.unmarked_mark, hplain]
  exact hmem

/-- At any depth, what is gone is a child of the earlier value's presentation, at the same
place. -/
theorem exists_of_kept {ty : Ty} {v w : Val} {m p m' c : Presentation} {path : List Nat}
    (hv : ty.Holds loaded v) (hw : ty.Holds loaded w) (h : ty.diff v ty w = .ok m)
    (hp : ty.present w = .ok p) (hm' : m.keptAt? path = some m') (hc : c ∈ m'.children)
    (hdelete : c.change = some .delete) :
    ∃ path' x y p', SamePlace ⟨ty, v⟩ ⟨ty, w⟩ path path' x y ∧ p.at? path' = some p'
      ∧ c.unmarked ∈ p'.children := by
  induction path generalizing ty v w m p m' with
  | nil =>
    obtain rfl := Option.some.inj hm'
    exact ⟨[], _, _, p, .here, rfl, unmarked_mem_children hv hw h hp hc hdelete⟩
  | cons n path ih =>
    obtain ⟨d, ss, cs, hd, hss, hcs, rfl⟩ := (diff_eq_ok_iff hv hw).1 h
    obtain ⟨s, ps, -, hps, rfl⟩ := (present_eq_ok_iff hw).1 hp
    obtain ⟨child, hchild, hkept, hm'⟩ := Presentation.keptAt?_cons_eq_some_iff.1 hm'
    obtain ⟨slot, hslot, hslotchild⟩ := exists_getElem?_of_mapM hcs hchild
    have hmem : slot ∈ ss := List.mem_of_getElem? hslot
    cases slot with
    | both x y =>
      obtain ⟨m₁, hm₁, hlabel⟩ := bind_eq_ok_iff.1 hslotchild
      obtain ⟨j, hj, hbeside⟩ := exists_beside hv hw hss hslot
      obtain ⟨p₁, hp₁, hpresent⟩ := exists_mapM_getElem? hps hj
      obtain ⟨p₂, hp₂, hlabel'⟩ := bind_eq_ok_iff.1 hpresent
      obtain ⟨hty, -, hx, hy⟩ := holds_of_both hv hw hss hmem
      -- naming the two changes nothing below them
      obtain ⟨m₂, hm₂, hchildren⟩ :=
        Presentation.exists_keptAt?_of_children (Label.children_of_apply hlabel) hm'
      rw [Typed.diff, ← hty] at hm₁
      rw [Typed.present, ← hty] at hp₂
      rw [← hchildren] at hc
      obtain ⟨path', x', y', p', hplace, hp', hunmarked⟩ := ih hx hy hm₁ hp₂ hm₂ hc
      obtain ⟨p'', hp'', hchildren'⟩ :=
        Presentation.exists_at?_of_children (Label.children_of_apply hlabel').symm hp'
      rw [← hchildren'] at hunmarked
      have hpart : Typed.mk x.part.ty y.part.val = y.part := by rw [hty]
      rw [hpart] at hplace
      refine ⟨j :: path', x', y', p'', .inside hbeside hplace, ?_, hunmarked⟩
      exact Presentation.at?_cons_eq_some_iff.2 ⟨p₁, hp₁, hp''⟩
    | same x y =>
      have hx := holds_of_mem_pieces hv ((mem_pieces_of_slots hv hw hss hmem).1 x rfl)
      have hplain : child.IsPlain := isPlain_of_piece hx hslotchild
      cases (hplain.change_of_keptAt? hm' hc).symm.trans hdelete
    | fresh x =>
      obtain ⟨q, -, rfl⟩ := exists_present_of_fresh hslotchild
      cases (Presentation.change_of_keptAt?_mark hm' hc).symm.trans hdelete
    | gone y =>
      obtain ⟨q, -, rfl⟩ := exists_present_of_gone hslotchild
      exact absurd q.change_mark hkept

/-- **What is gone is a child of the earlier value's presentation**, at the corresponding
place. -/
theorem exists_of_deleted {ty : Ty} {v w : Val} {m p m' c : Presentation} {path : List Nat}
    (hv : ty.Holds loaded v) (hw : ty.Holds loaded w) (h : ty.diff v ty w = .ok m)
    (hp : ty.present w = .ok p) (hm' : m.at? path = some m') (hc : c ∈ m'.children)
    (hdelete : c.change = some .delete) :
    ∃ path' p', Corresponds m p ⟨ty, v⟩ ⟨ty, w⟩ path path' ∧ p.at? path' = some p'
      ∧ c.unmarked ∈ p'.children := by
  rcases Presentation.keptAt?_or_exists_gone hm'
    with hkept | ⟨kept, j, tail, r, gone, rfl, hr, hgone, hchange, hm'⟩
  · obtain ⟨path', x, y, p', hplace, hp', hunmarked⟩ := exists_of_kept hv hw h hp hkept hc hdelete
    exact ⟨path', p', .same hplace, hp', hunmarked⟩
  · -- what is below something that is gone came along with it
    obtain ⟨path', x, y, p', hplace, hp', hunmarked⟩ :=
      exists_of_kept hv hw h hp hr (List.mem_of_getElem? hgone) hchange
    obtain ⟨k, hk⟩ := List.mem_iff_getElem?.1 hunmarked
    have hgoneAt : m.at? (kept ++ [j]) = some gone := by
      rw [Presentation.at?_append, Presentation.at?_of_keptAt? hr]
      exact Presentation.at?_cons_eq_some_iff.2 ⟨gone, hgone, rfl⟩
    have hcleared : p.at? (path' ++ [k]) = some gone.unmarked := by
      rw [Presentation.at?_append, hp']
      exact Presentation.at?_cons_eq_some_iff.2 ⟨gone.unmarked, hk, rfl⟩
    refine ⟨path' ++ k :: tail, m'.unmarked, .gone hplace hgoneAt hchange hcleared, ?_, ?_⟩
    · rw [Presentation.at?_append, hp']
      exact Presentation.at?_cons_eq_some_iff.2
        ⟨gone.unmarked, hk, Presentation.at?_unmarked hm'⟩
    · rw [Presentation.children_unmarked]
      exact List.mem_map_of_mem hc

end Micheline.Ty
