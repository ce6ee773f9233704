/-
Micheline/Proofs/Value/Current.lean

What a presentation beside an earlier value says of the value that is there now: without what
is gone and without marks it is the presentation of the value (`Ty.present_of_diff`).
-/
import Micheline.Proofs.Value.Cover
import Micheline.Proofs.Value.Equals

namespace Micheline

open Ty

/-! ### Naming -/

/-- Naming puts one name on everything, or leaves everything as it is. -/
theorem Label.naming_cases {label : Label} {p q : Presentation} (h : label.apply p = .ok q) :
    (q = p ∧ ∀ r, label.apply r = .ok r)
      ∨ ∃ name, q = p.named name ∧ ∀ r, label.apply r = .ok (r.named name) := by
  cases label with
  | own => exact .inl ⟨(Except.ok.inj h).symm, fun r => rfl⟩
  | place index => exact .inr ⟨_, (Except.ok.inj h).symm, fun r => rfl⟩
  | key k =>
    obtain ⟨name, hname, h⟩ := bind_eq_ok_iff.1 h
    refine .inr ⟨name, (pure_eq_ok_iff.1 h).symm, fun r => ?_⟩
    exact bind_eq_ok_iff.2 ⟨name, hname, rfl⟩

section Naming

variable {label label' : Label} {p q : Presentation} {c : Change}

theorem Label.children_of_apply (h : label.apply p = .ok q) : q.children = p.children := by
  obtain ⟨rfl, -⟩ | ⟨name, rfl, -⟩ := naming_cases h <;> rfl

theorem Label.change_of_apply (h : label.apply p = .ok q) : q.change = p.change := by
  obtain ⟨rfl, -⟩ | ⟨name, rfl, -⟩ := naming_cases h <;> rfl

theorem Label.hasChanges_of_apply (h : label.apply p = .ok q) :
    q.hasChanges = p.hasChanges := by
  obtain ⟨rfl, -⟩ | ⟨name, rfl, -⟩ := naming_cases h
  · rfl
  · rw [Presentation.hasChanges_named]

/-- Naming does not look at marks. -/
theorem Label.apply_current (h : label.apply p = .ok q) :
    label.apply p.current = .ok q.current := by
  obtain ⟨rfl, hall⟩ | ⟨name, rfl, hall⟩ := naming_cases h
  · exact hall _
  · rw [hall, Presentation.current_named]

/-- What is marked may be marked after it is named. -/
theorem Label.exists_of_apply_mark (h : label.apply (p.mark c) = .ok q) :
    ∃ r, label.apply p = .ok r ∧ q = r.mark c := by
  obtain ⟨rfl, hall⟩ | ⟨name, rfl, hall⟩ := naming_cases h
  · exact ⟨p, hall p, rfl⟩
  · exact ⟨p.named name, hall p, Presentation.mark_named.symm⟩

/-- Labels that are alike can be put on together. -/
theorem Label.Alike.exists_apply (h : label.Alike label') (hp : label.apply p = .ok q)
    (r : Presentation) : ∃ s, label'.apply r = .ok s := by
  cases h with
  | own => exact ⟨r, rfl⟩
  | place index => exact ⟨_, rfl⟩
  | key heq =>
    obtain ⟨name, hname, -⟩ := bind_eq_ok_iff.1 hp
    exact exists_return_iff.2 (exists_keyName_of_equal (.of_compare heq) ⟨name, hname⟩)

end Naming

/-! ### What is there now -/

/-- What a child says of its slot: without what is gone and without marks it is the piece
that is there now, and it is marked as deleted exactly if there is none. -/
def Slot.Shows (slot : Slot) (c : Presentation) : Prop :=
  match slot.new? with
  | some x => x.present = .ok c.current ∧ c.change ≠ some .delete
  | none => c.change = some .delete

namespace Ty

section Current

variable {loaded : Bool}

/-- A leaf beside an earlier one is the leaf with a mark. -/
theorem shell_of_shellDiff_leaf {ty : Ty} {v w : Val} {d : Presentation} (hty : ty.isLeaf = true)
    (hv : ty.Holds loaded v) (h : ty.shellDiff v w = .ok d) :
    ty.shell v = .ok { d with before := none, change := none } ∧ d.change ≠ some .delete := by
  obtain ⟨shown, after, before, hshown, -, -, rfl⟩ := (shellDiff_leaf_eq_ok_iff hty).1 h
  obtain ⟨hchange, hbefore⟩ := isPlain_of_shell hv hshown
  obtain ⟨prim, kind, name, before', change, value, children⟩ := shown
  obtain rfl : change = none := hchange
  obtain rfl : before' = none := hbefore
  split
  · exact ⟨hshown, nofun⟩
  · exact ⟨hshown, nofun⟩

/-- **The node beside an earlier value is the node of the value with a mark on it.** -/
theorem shell_of_shellDiff {ty : Ty} {v w : Val} {d : Presentation} (hv : ty.Holds loaded v)
    (hw : ty.Holds loaded w) (h : ty.shellDiff v w = .ok d) :
    ty.shell v = .ok { d with before := none, change := none } ∧ d.change ≠ some .delete := by
  induction ty generalizing v w d with
  | pair i l r | or i l r =>
    obtain rfl := Except.ok.inj h
    exact ⟨rfl, nofun⟩
  | option i t =>
    cases hv with
    | none =>
      obtain rfl := Except.ok.inj h
      exact ⟨rfl, nofun⟩
    | some _ =>
      obtain rfl := Except.ok.inj h
      exact ⟨rfl, nofun⟩
  | list i elem | set i elem | map i key value =>
    obtain rfl := Except.ok.inj h
    exact ⟨rfl, nofun⟩
  | bigMap i key value =>
    obtain ⟨pointer, new, rfl⟩ := exists_entries_of_holds hv
    obtain ⟨oldPointer, old, rfl⟩ := exists_entries_of_holds hw
    obtain ⟨shown, hshown, h⟩ := bind_eq_ok_iff.1 h
    obtain rfl := pure_eq_ok_iff.1 h
    -- A mark of the pointer adds to the shell and is all that has to be taken off again.
    obtain ⟨s, cs, hs, -, rfl⟩ := present_bigMap_eq_ok_iff.1 hshown
    obtain rfl := Except.ok.inj hs
    refine ⟨?_, ?_⟩
    · rw [markPointer_clear]
      rfl
    · exact change_markPointer nofun
  | ticket i content paired _ ih =>
    obtain ⟨d', hd', h⟩ := bind_eq_ok_iff.1 h
    obtain rfl := pure_eq_ok_iff.1 h
    cases hv with
    | ticket hv =>
      cases hw with
      | ticket hw =>
        obtain ⟨hshell, -⟩ := ih hv hw hd'
        exact ⟨bind_eq_ok_iff.2 ⟨_, hshell, rfl⟩, nofun⟩
  | _ => exact shell_of_shellDiff_leaf rfl hv h

/-- The children that are not marked as deleted are the pieces that are there now. -/
theorem mapM_present_of_shows {ss : List Slot} {cs : List Presentation}
    (h : List.Forall₂ Slot.Shows ss cs) :
    (ss.filterMap Slot.new?).mapM Piece.present = .ok (Presentation.currentAll cs) := by
  induction h with
  | nil => rfl
  | @cons slot c ss cs hslot _ ih =>
    rw [Slot.Shows] at hslot
    split at hslot
    next x hx =>
      obtain ⟨hpresent, hkept⟩ := hslot
      rw [List.filterMap_cons_some hx, Presentation.currentAll, if_neg hkept, List.mapM_cons,
        hpresent, ih]
      rfl
    next hnone =>
      rw [List.filterMap_cons_none hnone, Presentation.currentAll, if_pos hslot]
      exact ih

theorem exists_present_of_mark {x : Piece} {c : Presentation} {change : Change}
    (h : ((do return (← x.part.present).mark change) >>= x.label.apply) = .ok c) :
    ∃ q, x.present = .ok q ∧ c = q.mark change := by
  obtain ⟨p, hp, hlabel⟩ := bind_eq_ok_iff.1 h
  obtain ⟨q, hq, hp⟩ := bind_eq_ok_iff.1 hp
  obtain rfl := pure_eq_ok_iff.1 hp
  obtain ⟨r, hr, rfl⟩ := Label.exists_of_apply_mark hlabel
  exact ⟨r, bind_eq_ok_iff.2 ⟨q, hq, hr⟩, rfl⟩

/-- The child of a piece that is gone is what the piece looked like, marked all over. -/
theorem exists_present_of_gone {y : Piece} {c : Presentation} (h : (Slot.gone y).child = .ok c) :
    ∃ q, y.present = .ok q ∧ c = q.mark .delete :=
  exists_present_of_mark h

/-- The child of a fresh slot is its piece, marked as created all over. -/
theorem exists_present_of_fresh {x : Piece} {c : Presentation} (h : (Slot.fresh x).child = .ok c) :
    ∃ q, x.present = .ok q ∧ c = q.mark .create :=
  exists_present_of_mark h

/-- What is in a slot was taken from one of the two values. -/
theorem mem_pieces_of_slots {ty : Ty} {v w : Val} {ss : List Slot} (hv : ty.Holds loaded v)
    (hw : ty.Holds loaded w) (hss : ty.slots v w = .ok ss) {slot : Slot} (hslot : slot ∈ ss) :
    (∀ x, slot.new? = some x → x ∈ ty.pieces v) ∧ ∀ y, slot.old? = some y → y ∈ ty.pieces w := by
  have hcover := Slot.cover_slots hv hw hss
  constructor
  · intro x hx
    rw [← hcover.new]
    exact List.mem_filterMap.2 ⟨slot, hslot, hx⟩
  · intro y hy
    exact (hcover.old y).2 ⟨slot, hslot, hy⟩

/-- The parts in a slot are of one type, which is smaller, and are held. -/
theorem holds_of_both {ty : Ty} {v w : Val} {ss : List Slot} {x y : Piece}
    (hv : ty.Holds loaded v) (hw : ty.Holds loaded w) (hss : ty.slots v w = .ok ss)
    (hslot : .both x y ∈ ss) : x.part.ty = y.part.ty ∧ x.part.ty.size < ty.size
      ∧ x.part.ty.Holds loaded x.part.val ∧ x.part.ty.Holds loaded y.part.val := by
  have hty : x.part.ty = y.part.ty := ((Slot.cover_slots hv hw hss).sound _ hslot).1
  obtain ⟨hnew, hold⟩ := mem_pieces_of_slots hv hw hss hslot
  refine ⟨hty, size_lt_of_mem_pieces (hnew x rfl), holds_of_mem_pieces hv (hnew x rfl), ?_⟩
  rw [hty]
  exact holds_of_mem_pieces hw (hold y rfl)

/-- A child says of its slot what is there now, if the parts in the slot do. -/
theorem shows_of_child {ty : Ty} {v w : Val} {ss : List Slot} {slot : Slot} {c : Presentation}
    (hv : ty.Holds loaded v) (hw : ty.Holds loaded w) (hss : ty.slots v w = .ok ss)
    (hslot : slot ∈ ss) (h : slot.child = .ok c)
    (ih : ∀ {t : Ty} {a b : Val} {m : Presentation}, t.size < ty.size → t.Holds loaded a →
      t.Holds loaded b → t.diff a t b = .ok m →
        t.present a = .ok m.current ∧ m.change ≠ some .delete) : slot.Shows c := by
  have hnew : ∀ x, slot.new? = some x → x.part.ty.Holds loaded x.part.val :=
    fun x hx => holds_of_mem_pieces hv ((mem_pieces_of_slots hv hw hss hslot).1 x hx)
  cases slot with
  | both x y =>
    obtain ⟨m, hm, hlabel⟩ := bind_eq_ok_iff.1 h
    obtain ⟨hty, hsize, hx, hy⟩ := holds_of_both hv hw hss hslot
    rw [Typed.diff, ← hty] at hm
    -- Both pieces are of one type, which is smaller, since a piece is of a part.
    obtain ⟨hpresent, hkept⟩ := ih hsize hx hy hm
    refine ⟨bind_eq_ok_iff.2 ⟨m.current, hpresent, Label.apply_current hlabel⟩, ?_⟩
    rw [Label.change_of_apply hlabel]
    exact hkept
  | same x y =>
    have hplain : c.IsPlain := isPlain_of_piece (hnew x rfl) h
    refine ⟨?_, ?_⟩
    · rw [Presentation.current_of_isPlain c hplain]
      exact h
    · rw [hplain.change]
      exact (Option.some_ne_none _).symm
  | fresh x =>
    obtain ⟨q, hq, rfl⟩ := exists_present_of_fresh h
    have hplain : q.IsPlain := isPlain_of_piece (hnew x rfl) hq
    -- Marks of creation go away, and the child with them taken away is the piece shown alone.
    have hcreate : Change.create ≠ .delete := by decide
    have hcurrent : (q.mark .create).current = q :=
      (Presentation.current_mark q hcreate).trans hplain
    refine ⟨?_, ?_⟩
    · rw [hcurrent]
      exact hq
    · rw [Presentation.change_mark]
      exact fun h => hcreate (Option.some.inj h)
  | gone y =>
    obtain ⟨q, -, rfl⟩ := exists_present_of_gone h
    exact q.change_mark

/-- **Without what is gone and without marks it is the presentation of the value.** -/
theorem present_of_diff {ty : Ty} {v w : Val} {m : Presentation} (hv : ty.Holds loaded v)
    (hw : ty.Holds loaded w) (h : ty.diff v ty w = .ok m) :
    ty.present v = .ok m.current ∧ m.change ≠ some .delete := by
  obtain ⟨d, ss, cs, hd, hss, hcs, rfl⟩ := (diff_eq_ok_iff hv hw).1 h
  obtain ⟨hshell, hkept⟩ := shell_of_shellDiff hv hw hd
  have hshows : List.Forall₂ Slot.Shows ss cs := by
    refine forall₂_of_mapM hcs fun slot hslot c hc => ?_
    exact shows_of_child hv hw hss hslot hc fun hsize hx hy hm => present_of_diff hx hy hm
  have hpieces := mapM_present_of_shows hshows
  rw [(Slot.cover_slots hv hw hss).new] at hpieces
  refine ⟨(present_eq_ok_iff hv).2 ⟨_, _, hshell, hpieces, ?_⟩, hkept⟩
  rw [Presentation.current]
termination_by ty.size

end Current

end Ty

end Micheline
