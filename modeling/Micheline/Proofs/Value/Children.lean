/-
Micheline/Proofs/Value/Children.lean

The children of presentations beside earlier values are those of the slots: the members of
pairs and the items of lists one by one, the elements of sets as they merge, and the entries
of maps as they are found in one another.
-/
import Micheline.Proofs.Value.Entry
import Micheline.Proofs.Value.Slots

namespace Micheline.Ty

open Slot

variable {elem key value : Ty} {cs : List Presentation}

/-- The children of a pair are those of its members, place by place. -/
theorem mapM_align_members {xs ys : List Typed} (h : xs.length = ys.length) :
    (align (xs.map fun m => ⟨m, .own⟩) (ys.map fun m => ⟨m, .own⟩)).mapM Slot.child
      = (xs.zip ys).mapM fun p => p.1.diff p.2 := by
  induction xs generalizing ys with
  | nil =>
    obtain rfl := List.length_eq_zero_iff.1 h.symm
    rfl
  | cons x xs ih =>
    cases ys with
    | nil => cases h
    | cons y ys =>
      rw [List.map_cons, List.map_cons, align, List.mapM_cons, ih (Nat.succ.inj h),
        List.zip_cons_cons, List.mapM_cons]
      show ((x.diff y >>= Except.ok) >>= _) = (x.diff y >>= _)
      rcases x.diff y with e | p <;> rfl

/-- The children of a list are those of its items, place by place, as long as both lists go on. -/
theorem mapM_align_items {index : Nat} {new old : List Val} :
    (align (itemPieces elem index new) (itemPieces elem index old)).mapM Slot.child
      = diffItems elem.created (fun a b => elem.diff a elem b) elem.deleted index new old := by
  -- The index is part of each name, so it counts along on both sides.
  induction new generalizing index old with
  | nil =>
    induction old generalizing index with
    | nil =>
      rw [diffItems]
      rfl
    | cons b old ih =>
      have htail : (align [] (itemPieces elem (index + 1) old)).mapM Slot.child = _ := ih
      rw [diffItems, ← htail]
      show (Slot.gone ⟨⟨elem, b⟩, .place index⟩ :: align [] (itemPieces elem (index + 1) old)).mapM
        Slot.child = _
      rw [List.mapM_cons]
      show ((elem.deleted b >>= _) >>= _) = (elem.deleted b >>= _)
      rcases elem.deleted b with e | p <;> rfl
  | cons a new ih =>
    cases old with
    | nil =>
      have htail : (align (itemPieces elem (index + 1) new) (itemPieces elem (index + 1) [])).mapM
        Slot.child = _ := ih
      rw [itemPieces, align_nil_right] at htail
      rw [diffItems, ← htail]
      show (Slot.fresh ⟨⟨elem, a⟩, .place index⟩
        :: (itemPieces elem (index + 1) new).map Slot.fresh).mapM Slot.child = _
      rw [List.mapM_cons]
      show ((elem.created a >>= _) >>= _) = (elem.created a >>= _)
      rcases elem.created a with e | p <;> rfl
    | cons b old =>
      rw [diffItems, ← ih, itemPieces, itemPieces, align, List.mapM_cons]
      show ((elem.diff a elem b >>= _) >>= _) = (elem.diff a elem b >>= _)
      rcases elem.diff a elem b with e | p <;> rfl

/-- One more slot makes one more child. -/
theorem cons_slot_eq_ok_iff (slot : Slot) {slots : Except Error (List Slot)}
    {children : Except Error (List Presentation)}
    (h : ∀ cs, children = .ok cs ↔ ∃ ss, slots = .ok ss ∧ ss.mapM Slot.child = .ok cs) :
    (do return (← slot.child) :: (← children)) = Except.ok cs
      ↔ ∃ ss, (do return slot :: (← slots)) = Except.ok ss ∧ ss.mapM Slot.child = .ok cs := by
  constructor
  · intro hcs
    obtain ⟨child, hchild, hcs⟩ := bind_eq_ok_iff.1 hcs
    obtain ⟨rest, hrest, hcs⟩ := bind_eq_ok_iff.1 hcs
    obtain rfl := pure_eq_ok_iff.1 hcs
    obtain ⟨ss, hss, hss'⟩ := (h rest).1 hrest
    refine ⟨slot :: ss, bind_eq_ok_iff.2 ⟨ss, hss, rfl⟩, ?_⟩
    rw [List.mapM_cons, hchild, hss']
    rfl
  · rintro ⟨ss, hss, hcs⟩
    obtain ⟨rest, hrest, hss⟩ := bind_eq_ok_iff.1 hss
    obtain rfl := pure_eq_ok_iff.1 hss
    rw [List.mapM_cons] at hcs
    obtain ⟨child, hchild, hcs⟩ := bind_eq_ok_iff.1 hcs
    obtain ⟨children', hchildren, hcs⟩ := bind_eq_ok_iff.1 hcs
    rw [hchild, (h children').2 ⟨rest, hrest, hchildren⟩]
    exact hcs

/-- The children of a set are those of its slots. -/
theorem diffElements_eq_ok_iff {new old : List Val} :
    diffElements elem elem new old = .ok cs
      ↔ ∃ ss, elementSlots elem new old = .ok ss ∧ ss.mapM Slot.child = .ok cs := by
  induction new, old using elementSlots.induct generalizing cs with
  | case1 old =>
    have hgone : (old.map fun b => Slot.gone (elementPiece elem b)).mapM Slot.child
        = old.mapM (elem.namedByKey deleted) := mapM_map_congr fun _ _ => rfl
    rw [diffElements, mergeSorted, elementSlots, ← hgone]
    simp
  | case2 new hnew =>
    have hfresh : (new.map fun a => Slot.fresh (elementPiece elem a)).mapM Slot.child
        = new.mapM (elem.namedByKey created) := mapM_map_congr fun _ _ => rfl
    rw [diffElements, mergeSorted.eq_2 _ _ _ _ _ hnew, elementSlots.eq_2 _ _ hnew, ← hfresh]
    simp
  -- A difference is merged and presented in one go; slots are merged first and then presented.
  | case3 a new b old iheq ihlt ihgt =>
    rw [diffElements, mergeSorted, elementSlots]
    show (elem.compare a b >>= _) = _ ↔ ∃ ss, (elem.compare a b >>= _) = _ ∧ _
    rcases elem.compare a b with e | - | - | -
    · exact iff_of_false (by rintro ⟨⟩) (by rintro ⟨_, ⟨⟩, _⟩)
    · exact cons_slot_eq_ok_iff (.fresh (elementPiece elem a)) fun _ => ihlt
    · exact cons_slot_eq_ok_iff (.same (elementPiece elem a) (elementPiece elem b)) fun _ => iheq
    · exact cons_slot_eq_ok_iff (.gone (elementPiece elem b)) fun _ => ihgt

/-- The child of an entry that is gone, if it is. -/
def lostChild : Option Slot → Except Error (Option Presentation)
  | none => .ok none
  | some slot => do return some (← slot.child)

/-- The lost slots that there are give the lost children that there are. -/
theorem mapM_lostChild_eq_ok_iff {ls : List (Option Slot)} :
    (ls.filterMap id).mapM Slot.child = .ok cs
      ↔ ∃ os, ls.mapM lostChild = .ok os ∧ cs = os.filterMap id := by
  induction ls generalizing cs with
  | nil =>
    rw [List.filterMap_nil, List.mapM_nil, List.mapM_nil, pure_eq_ok_iff]
    constructor
    · rintro rfl
      exact ⟨[], rfl, rfl⟩
    · rintro ⟨os, hos, rfl⟩
      obtain rfl := pure_eq_ok_iff.1 hos
      rfl
  | cons l ls ih =>
    rw [List.mapM_cons]
    cases l with
    | none =>
      rw [List.filterMap_cons_none rfl, ih]
      constructor
      · rintro ⟨os, hos, rfl⟩
        exact ⟨none :: os, bind_eq_ok_iff.2 ⟨none, rfl, bind_eq_ok_iff.2 ⟨os, hos, rfl⟩⟩, rfl⟩
      · rintro ⟨os, hos, rfl⟩
        obtain ⟨o, ho, hos⟩ := bind_eq_ok_iff.1 hos
        obtain rfl := Except.ok.inj ho
        obtain ⟨rest, hrest, hos⟩ := bind_eq_ok_iff.1 hos
        obtain rfl := pure_eq_ok_iff.1 hos
        exact ⟨rest, hrest, rfl⟩
    | some slot =>
      rw [List.filterMap_cons_some (show id (some slot) = some slot from rfl), List.mapM_cons]
      constructor
      · intro h
        obtain ⟨child, hchild, h⟩ := bind_eq_ok_iff.1 h
        obtain ⟨rest, hrest, h⟩ := bind_eq_ok_iff.1 h
        obtain rfl := pure_eq_ok_iff.1 h
        obtain ⟨os, hos, rfl⟩ := ih.1 hrest
        refine ⟨some child :: os, bind_eq_ok_iff.2 ⟨some child, ?_, ?_⟩, rfl⟩
        · exact bind_eq_ok_iff.2 ⟨child, hchild, rfl⟩
        · exact bind_eq_ok_iff.2 ⟨os, hos, rfl⟩
      · rintro ⟨os, hos, rfl⟩
        obtain ⟨o, ho, hos⟩ := bind_eq_ok_iff.1 hos
        obtain ⟨child, hchild, ho⟩ := bind_eq_ok_iff.1 ho
        obtain rfl := pure_eq_ok_iff.1 ho
        obtain ⟨rest, hrest, hos⟩ := bind_eq_ok_iff.1 hos
        obtain rfl := pure_eq_ok_iff.1 hos
        refine bind_eq_ok_iff.2 ⟨child, hchild, ?_⟩
        exact bind_eq_ok_iff.2 ⟨_, ih.2 ⟨rest, hrest, rfl⟩, rfl⟩

/-- An entry that is there now gives a child next to the earlier value, if there was one. -/
theorem keptSlot_bind_child {old : List (Val × Val)} (p : Val × Val) :
    (keptSlot key value old p >>= Slot.child) = (do
      let child ← match ← Sorted.find? (fun known k => compareValues key known key k) p.1 old with
        | some before => value.diff p.2 value before
        | none => value.created p.2
      return child.named (← key.keyName p.1)) := by
  rw [keptSlot, Sorted.find?_eq_map_findPair?]
  show ((Sorted.findPair? (fun known k => compareValues key known key k) p.1 old >>= _) >>= _) = _
  rcases Sorted.findPair? (fun known k => compareValues key known key k) p.1 old
    with e | - | q <;> rfl

/-- An earlier entry gives a child only if its key is gone. -/
theorem lostSlot_bind_lostChild {new : List (Val × Val)} (q : Val × Val) :
    (lostSlot key value new q >>= lostChild) = (do
      match ← Sorted.find? (fun known k => compareValues key known key k) q.1 new with
      | some _ => return none
      | none =>
        let child ← value.deleted q.2
        return some (child.named (← key.keyName q.1))) := by
  rw [lostSlot, Sorted.find?_eq_map_findPair?]
  show ((Sorted.findPair? (fun known k => compareValues key known key k) q.1 new >>= _) >>= _) = _
  rcases Sorted.findPair? (fun known k => compareValues key known key k) q.1 new with e | - | p
  · rfl
  · show ((value.deleted q.2 >>= _) >>= _) = (value.deleted q.2 >>= _)
    rcases value.deleted q.2 with e | child
    · rfl
    · show ((key.keyName q.1 >>= _) >>= _) = (key.keyName q.1 >>= _)
      rcases key.keyName q.1 with e | name <;> rfl
  · rfl

/-- The children of a map are those of its slots. -/
theorem diffEntries_eq_ok_iff {new old : List (Val × Val)} :
    diffEntries key key value.created (fun a b => value.diff a value b) value.deleted new old
        = .ok cs
      ↔ ∃ ss, entrySlots key value new old = .ok ss ∧ ss.mapM Slot.child = .ok cs := by
  -- The children are made while the slots are found; apart from each other the two runs are
  -- those of `entrySlots` and of `Slot.child`.
  have hrun : diffEntries key key value.created (fun a b => value.diff a value b) value.deleted
      new old = (do
        let kept ← new.mapM fun p => keptSlot key value old p >>= Slot.child
        let lost ← old.mapM fun q => lostSlot key value new q >>= lostChild
        return kept ++ lost.filterMap id) := by
    rw [funext keptSlot_bind_child, funext lostSlot_bind_lostChild]
    rfl
  rw [hrun, entrySlots]
  constructor
  · intro h
    obtain ⟨kept, hkept, h⟩ := bind_eq_ok_iff.1 h
    obtain ⟨lost, hlost, h⟩ := bind_eq_ok_iff.1 h
    obtain rfl := pure_eq_ok_iff.1 h
    obtain ⟨ks, hks, hkept⟩ := mapM_bind_eq_ok_iff.1 hkept
    obtain ⟨ls, hls, hlost⟩ := mapM_bind_eq_ok_iff.1 hlost
    refine ⟨ks ++ ls.filterMap id, ?_, ?_⟩
    · rw [hks, hls]
      rfl
    -- Entries that are still there give no slot, and no child.
    · have hgone := mapM_lostChild_eq_ok_iff.2 ⟨lost, hlost, rfl⟩
      exact mapM_append_eq_ok_iff.2 ⟨kept, _, hkept, hgone, rfl⟩
  · rintro ⟨ss, hss, hcs⟩
    obtain ⟨ks, hks, hss⟩ := bind_eq_ok_iff.1 hss
    obtain ⟨ls, hls, hss⟩ := bind_eq_ok_iff.1 hss
    obtain rfl := pure_eq_ok_iff.1 hss
    obtain ⟨kept, gone, hkept, hgone, rfl⟩ := mapM_append_eq_ok_iff.1 hcs
    obtain ⟨lost, hlost, rfl⟩ := mapM_lostChild_eq_ok_iff.1 hgone
    rw [mapM_bind_eq_ok_iff.2 ⟨ks, hks, hkept⟩, mapM_bind_eq_ok_iff.2 ⟨ls, hls, hlost⟩]
    rfl

end Micheline.Ty
