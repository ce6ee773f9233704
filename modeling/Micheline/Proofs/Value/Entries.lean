/-
Micheline/Proofs/Value/Entries.lean

What the children of a map say beside an earlier one (`Ty.ClassifiesEntries`).  A map has a
child for each entry that is there now, followed by one for each entry that is gone.  The
entries are searched for, and a search that finds nothing means that there is no equal key
(`Sorted.findPair?_cases`).
-/
import Micheline.Proofs.Value.Current
import Micheline.Proofs.Value.Merge

namespace Micheline.Ty

open Sorted

variable {key value : Ty} {new old : List (Val × Val)}

/-- The node of a value beside an earlier one has no other mark than that of an update. -/
theorem change_of_shellDiff {loaded : Bool} {ty : Ty} {v w : Val} {d : Presentation}
    (hv : ty.Holds loaded v) (hw : ty.Holds loaded w) (h : ty.shellDiff v w = .ok d) :
    d.change = none ∨ d.change = some .update := by
  by_cases hty : ty.isLeaf = true
  · obtain ⟨shown, after, before, hshown, -, -, rfl⟩ := (shellDiff_leaf_eq_ok_iff hty).1 h
    split
    · exact .inl (isPlain_of_shell hv hshown).1
    · exact .inr rfl
  · cases ty with
    | pair i l r | or i l r =>
      obtain rfl := Except.ok.inj h
      exact .inl rfl
    | option i t =>
      have hshell : (option i t).shell v = .ok d := h
      exact .inl (isPlain_of_shell hv hshell).1
    | list i elem | set i elem | map i key value =>
      obtain rfl := Except.ok.inj h
      exact .inl rfl
    | bigMap i key value =>
      obtain ⟨pointer, new, rfl⟩ := exists_entries_of_holds hv
      obtain ⟨oldPointer, old, rfl⟩ := exists_entries_of_holds hw
      obtain ⟨shown, hshown, h⟩ := bind_eq_ok_iff.1 h
      obtain rfl := pure_eq_ok_iff.1 h
      rw [markPointer]
      split
      · exact .inr rfl
      · exact .inl (isPlain_of_present hv hshown).change
    | ticket i content paired =>
      obtain ⟨d', -, h⟩ := bind_eq_ok_iff.1 h
      obtain rfl := pure_eq_ok_iff.1 h
      exact .inl rfl
    | _ => exact absurd rfl hty

/-- The presentation of a value beside an earlier one has no other mark than that of an update. -/
theorem change_of_diff {loaded : Bool} {ty : Ty} {v w : Val} {m : Presentation}
    (hv : ty.Holds loaded v) (hw : ty.Holds loaded w) (h : ty.diff v ty w = .ok m) :
    m.change = none ∨ m.change = some .update := by
  obtain ⟨d, ss, cs, hd, -, -, rfl⟩ := (diff_eq_ok_iff hv hw).1 h
  have hmark := change_of_shellDiff hv hw hd
  exact hmark

/-- What the child of an entry says beside an earlier map: the value is marked as created all
over exactly if there was no equal key, and where there was one the child is the value beside
the value at that key. -/
structure EntryChild (key value : Ty) (old : List (Val × Val)) (p : Val × Val)
    (c : Presentation) : Prop where
  created : (∃ q, (entryPiece key value p).present = .ok q ∧ c = q.mark .create)
    ↔ ¬ Has key.compare (old.map (·.1)) p.1
  changed : ∀ q ∈ old, key.compare q.1 p.1 = .ok .eq → ∃ d, value.diff p.2 value q.2 = .ok d
    ∧ (Label.key ⟨key, p.1⟩).apply d = .ok c
  kept : c.change ≠ some .delete

/-- **The children of a map beside an earlier one**: its own entries, and then the earlier
ones whose key is gone. -/
def ClassifiesEntries (key value : Ty) (new old : List (Val × Val)) (cs : List Presentation) :
    Prop :=
  Ascending key.compare (new.map (·.1)) ∧ ∃ kept lost gone, cs = kept ++ gone
    ∧ List.Forall₂ (EntryChild key value old) new kept
    ∧ lost.Sublist old ∧ Ascending key.compare (lost.map (·.1))
    ∧ (∀ q, q ∈ lost ↔ q ∈ old ∧ ¬ Has key.compare (new.map (·.1)) q.1)
    ∧ List.Forall₂ (fun q c => ∃ p, (entryPiece key value q).present = .ok p
        ∧ c = p.mark .delete) lost gone

/-- The child of an entry that is there now is created if its key is new, and else the
difference of the values. -/
theorem entryChild_of_keptSlot {p : Val × Val} {slot : Slot} {c : Presentation}
    (hold : HoldsEntries true key value old) (hp : value.Holds true p.2)
    (hslot : keptSlot key value old p = .ok slot) (h : slot.child = .ok c) :
    EntryChild key value old p c := by
  have hc := isOrder_compare key
  obtain ⟨found, hfound, hslot⟩ := bind_eq_ok_iff.1 hslot
  obtain ⟨rfl, hne⟩ | ⟨q, hq, heq, rfl⟩ := findPair?_cases hc hold.ascending hfound
  · -- there was no equal key
    obtain rfl := pure_eq_ok_iff.1 hslot
    obtain ⟨shown, hshown, rfl⟩ := exists_present_of_fresh h
    refine ⟨iff_of_true ⟨shown, hshown, rfl⟩ hne, fun q hq heq => ?_, ?_⟩
    · exact absurd ⟨q.1, List.mem_map_of_mem hq, heq⟩ hne
    · rw [shown.change_mark]
      nofun
  · -- an equal key is that of one entry
    obtain rfl := pure_eq_ok_iff.1 hslot
    obtain ⟨d, hd, hlabel⟩ := bind_eq_ok_iff.1 h
    have hmark : c.change = none ∨ c.change = some .update := by
      rw [Label.change_of_apply hlabel]
      exact change_of_diff hp (hold.values q hq) hd
    refine ⟨iff_of_false ?_ (not_not_intro ⟨q.1, List.mem_map_of_mem hq, heq⟩), ?_, ?_⟩
    · rintro ⟨shown, -, rfl⟩
      rw [shown.change_mark] at hmark
      rcases hmark with hmark | hmark <;> cases hmark
    · intro q' hq' heq'
      have hfound' := findPair?_of_mem hc hold.ascending hq' heq'
      obtain rfl := Option.some.inj (Except.ok.inj (hfound.symm.trans hfound'))
      exact ⟨d, hd, hlabel⟩
    · rintro hdelete
      rw [hdelete] at hmark
      rcases hmark with hmark | hmark <;> cases hmark

/-- The slots of what is gone are those of the entries without an equal key, in order. -/
theorem exists_lost_of_mapM (hnew : Ascending key.compare (new.map (·.1)))
    {losses : List (Option Slot)} (h : old.mapM (lostSlot key value new) = .ok losses) :
    ∃ lost : List (Val × Val), lost.Sublist old
      ∧ (∀ q, q ∈ lost ↔ q ∈ old ∧ ¬ Has key.compare (new.map (·.1)) q.1)
      ∧ losses.filterMap id = lost.map fun q => .gone (entryPiece key value q) := by
  have hc := isOrder_compare key
  replace h := mapM_eq_ok_iff.1 h
  induction h with
  | nil => exact ⟨[], List.Sublist.refl _, fun q => by simp, rfl⟩
  | @cons q slot old losses hslot _ ih =>
    obtain ⟨lost, hsub, hmem, hslots⟩ := ih
    -- An old entry is lost if the search for its key among the new ones finds none.
    obtain ⟨found, hfound, hslot⟩ := bind_eq_ok_iff.1 hslot
    obtain ⟨rfl, hne⟩ | ⟨p, hp, heq, rfl⟩ := findPair?_cases hc hnew hfound
    · obtain rfl := pure_eq_ok_iff.1 hslot
      refine ⟨q :: lost, hsub.cons_cons q, fun r => ?_, ?_⟩
      · rw [List.mem_cons, List.mem_cons, hmem, or_and_right]
        refine or_congr_left ?_
        exact ⟨fun h => ⟨h, h ▸ hne⟩, fun h => h.1⟩
      · rw [List.map_cons, ← hslots]
        rfl
    · obtain rfl := pure_eq_ok_iff.1 hslot
      refine ⟨lost, hsub.cons q, fun r => ?_, hslots⟩
      have hhas : Has key.compare (new.map (·.1)) q.1 := ⟨p.1, List.mem_map_of_mem hp, heq⟩
      rw [List.mem_cons, hmem, or_and_right]
      refine (or_iff_right ?_).symm
      rintro ⟨rfl, hne⟩
      exact hne hhas

/-- **The children of the slots of two maps** are classified. -/
theorem classifiesEntries_of_slots {ss : List Slot} {cs : List Presentation}
    (hnew : HoldsEntries true key value new) (hold : HoldsEntries true key value old)
    (hss : entrySlots key value new old = .ok ss) (hcs : ss.mapM Slot.child = .ok cs) :
    ClassifiesEntries key value new old cs := by
  obtain ⟨slots, losses, hkept, hlost, rfl⟩ := Slot.entrySlots_eq_ok_iff.1 hss
  obtain ⟨kept, gone, hchildren, hgone, rfl⟩ := mapM_append_eq_ok_iff.1 hcs
  obtain ⟨lost, hsub, hmem, hslots⟩ := exists_lost_of_mapM hnew.ascending hlost
  refine ⟨hnew.ascending, kept, lost, gone, rfl, ?_, hsub, ?_, hmem, ?_⟩
  · refine forall₂_of_mapM (mapM_bind_eq_ok_iff.2 ⟨slots, hkept, hchildren⟩) fun p hp c hchild => ?_
    obtain ⟨slot, hslot, hchild⟩ := bind_eq_ok_iff.1 hchild
    exact entryChild_of_keptSlot hold (hnew.values p hp) hslot hchild
  · exact hold.ascending.sublist (hsub.map _)
  · rw [hslots, List.mapM_map] at hgone
    exact forall₂_of_mapM hgone fun q _ c hchild => exists_present_of_gone hchild

end Micheline.Ty
