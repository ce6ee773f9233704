/-
Micheline/Proofs/Value/Classified.lean

Which of the entries of a set or a map came, which went and which stayed, said by its children
beside an earlier one.

Main result: every entry is classified once (`Ty.diff_classifies`).
-/
import Micheline.Proofs.Value.Elements
import Micheline.Proofs.Value.Entries

namespace Micheline.Ty

/-- **Every entry is classified once.**  Beside an earlier set whose elements decode, as its
own do, a set has the elements of both as children, in ascending order and each of equal ones
once; a child is marked as created if its element is there now only, as deleted if it was
there before only, and not at all if it is in both.  Beside an earlier map, a map has a child
for each of its entries in ascending order, marked as created all over exactly if the key is
new and else the difference of the two values; one that is marked as deleted all over follows
for each earlier entry whose key is gone, in ascending order.  The entries of big maps are
classified in the same way, whatever their pointers are. -/
theorem diff_classifies :
    (∀ (i : Info) (elem : Ty) (new old : List Val) (m : Presentation),
        elem.isComparable = true →
        (set i elem).Holds true (.items new) → (set i elem).Holds true (.items old) →
        (set i elem).Decodes (.items new) → (set i elem).Decodes (.items old) →
        (set i elem).diff (.items new) (set i elem) (.items old) = .ok m →
          ClassifiesElements elem new old m.children)
      ∧ (∀ (i : Info) (key value : Ty) (new old : List (Val × Val)) (m : Presentation),
        (map i key value).Holds true (.entries none new) →
        (map i key value).Holds true (.entries none old) →
        (map i key value).diff (.entries none new) (map i key value) (.entries none old) = .ok m →
          ClassifiesEntries key value new old m.children)
      ∧ ∀ (i : Info) (key value : Ty) (pointer oldPointer : Option Int)
          (new old : List (Val × Val)) (m : Presentation),
        (bigMap i key value).Holds true (.entries pointer new) →
        (bigMap i key value).Holds true (.entries oldPointer old) →
        (bigMap i key value).diff (.entries pointer new) (bigMap i key value)
            (.entries oldPointer old) = .ok m →
          ClassifiesEntries key value new old m.children := by
  refine ⟨fun i elem new old m => classifiesElements_of_diff,
    fun i key value new old m hnew hold h => ?_,
    fun i key value pointer oldPointer new old m hnew hold h => ?_⟩
  · obtain ⟨d, ss, cs, -, hss, hcs, rfl⟩ := (diff_eq_ok_iff hnew hold).1 h
    cases hnew with
    | map hk hv hs =>
      cases hold with
      | map hk' hv' hs' => exact classifiesEntries_of_slots ⟨hk, hv, hs⟩ ⟨hk', hv', hs'⟩ hss hcs
  · obtain ⟨d, ss, cs, -, hss, hcs, rfl⟩ := (diff_eq_ok_iff hnew hold).1 h
    exact classifiesEntries_of_slots (holdsEntries_of_bigMap hnew) (holdsEntries_of_bigMap hold)
      hss hcs

/-- A set that lost 2 and got 1, and a map and a big map that did so with their keys; the
value at the key 3 changed. -/
theorem diff_classifies_moved :
    let int : Ty := .scalar ⟨0, 0, []⟩ .int
    let number (z : Int) : Val := .literal (.int z)
    let elements : Ty := .set ⟨0, 0, []⟩ int
    let new : List Val := [number 1, number 3]
    let old : List Val := [number 2, number 3]
    let newPairs : List (Val × Val) := [(number 1, number 10), (number 3, number 30)]
    let oldPairs : List (Val × Val) := [(number 2, number 20), (number 3, number 31)]
    (∃ m, elements.diff (.items new) elements (.items old) = .ok m
        ∧ ClassifiesElements int new old m.children
        ∧ m.children.map (·.change) = [some .create, some .delete, none])
      ∧ (∃ m, (map ⟨0, 0, []⟩ int int).diff (.entries none newPairs) (map ⟨0, 0, []⟩ int int)
            (.entries none oldPairs) = .ok m
        ∧ ClassifiesEntries int int newPairs oldPairs m.children
        ∧ m.children.map (·.change) = [some .create, some .update, some .delete])
      ∧ ∃ m, (bigMap ⟨0, 0, []⟩ int int).diff (.entries (some 5) newPairs)
            (bigMap ⟨0, 0, []⟩ int int) (.entries (some 4) oldPairs) = .ok m
        ∧ ClassifiesEntries int int newPairs oldPairs m.children
        ∧ m.children.map (·.change) = [some .create, some .update, some .delete] := by
  intro int number elements new old newPairs oldPairs
  obtain ⟨hsets, hmaps, hbigMaps⟩ := diff_classifies
  have hset (y z : Int) (h : elements.settle (.seq [.int y, .int z])
      = .ok (.items [number y, number z])) : elements.Holds true (.items [number y, number z]) :=
    (holds_of_settle h).mono
  have hnew := hset 1 3 rfl
  have hold := hset 2 3 rfl
  have hdecodes (y z : Int) : elements.Decodes (.items [number y, number z]) := by
    intro p hp
    rcases List.mem_pair.1 hp with rfl | rfl <;> trivial
  have hnewMap : (map ⟨0, 0, []⟩ int int).Holds true (.entries none newPairs) := by
    have hsettle : (map ⟨0, 0, []⟩ int int).settle
        (.seq [.app "Elt" [.int 1, .int 10], .app "Elt" [.int 3, .int 30]])
          = .ok (.entries none newPairs) := rfl
    exact (holds_of_settle hsettle).mono
  have holdMap : (map ⟨0, 0, []⟩ int int).Holds true (.entries none oldPairs) := by
    have hsettle : (map ⟨0, 0, []⟩ int int).settle
        (.seq [.app "Elt" [.int 2, .int 20], .app "Elt" [.int 3, .int 31]])
          = .ok (.entries none oldPairs) := rfl
    exact (holds_of_settle hsettle).mono
  let node (name value : String) : Presentation :=
    { prim := "int", kind := "int", name := some name, value := some (.str value) }
  let slots : List Slot := [.fresh (entryPiece int int (number 1, number 10)),
    .both (entryPiece int int (number 3, number 30)) (entryPiece int int (number 3, number 31)),
    .gone (entryPiece int int (number 2, number 20))]
  have hslots : slots.mapM Slot.child = .ok [{ node "1" "10" with change := some .create },
      { node "3" "30" with change := some .update, before := some (.str "31") },
      { node "2" "20" with change := some .delete }] := by
    have hchanged : int.diff (number 30) int (number 31) = .ok
        { Presentation.ofTy int "int" with
          value := some (.str "30"), change := some .update, before := some (.str "31") } := by
      rw [diff_of_isLeaf rfl]
      rfl
    have hboth : Slot.child (.both (entryPiece int int (number 3, number 30))
        (entryPiece int int (number 3, number 31)))
          = .ok { node "3" "30" with change := some .update, before := some (.str "31") } :=
      bind_eq_ok_iff.2 ⟨_, hchanged, rfl⟩
    rw [List.mapM_cons, List.mapM_cons, hboth]
    rfl
  refine ⟨?_, ?_, ?_⟩
  · have hmerged : elementSlots int new old = .ok [.fresh (elementPiece int (number 1)),
        .gone (elementPiece int (number 2)),
        .same (elementPiece int (number 3)) (elementPiece int (number 3))] := by
      have hlt : int.compare (number 1) (number 2) = .ok .lt := rfl
      have hgt : int.compare (number 3) (number 2) = .ok .gt := rfl
      have heq : int.compare (number 3) (number 3) = .ok .eq := rfl
      have hlast : elementSlots int [number 3] [number 3]
          = .ok [.same (elementPiece int (number 3)) (elementPiece int (number 3))] := by
        rw [elementSlots, heq]
        show (elementSlots int [] [] >>= _) = _
        rw [elementSlots]
        rfl
      have hrest : elementSlots int [number 3] old
          = .ok [.gone (elementPiece int (number 2)),
            .same (elementPiece int (number 3)) (elementPiece int (number 3))] := by
        rw [elementSlots, hgt]
        show (elementSlots int [number 3] [number 3] >>= _) = _
        rw [hlast]
        rfl
      rw [elementSlots, hlt]
      show (elementSlots int [number 3] old >>= _) = _
      rw [hrest]
      rfl
    have hm := (diff_eq_ok_iff hnew hold).2 ⟨_, _, _, rfl, hmerged, rfl, rfl⟩
    exact ⟨_, hm, hsets _ int new old _ rfl hnew hold (hdecodes 1 3) (hdecodes 2 3) hm, rfl⟩
  · have hm := (diff_eq_ok_iff hnewMap holdMap).2 ⟨_, slots, _, rfl, rfl, hslots, rfl⟩
    exact ⟨_, hm, hmaps _ int int newPairs oldPairs _ hnewMap holdMap hm, rfl⟩
  · have hload (id : Int) (hid : Decimal.isInt64 id = true) {pairs : List (Val × Val)}
        (h : (map ⟨0, 0, []⟩ int int).Holds true (.entries none pairs)) :
        (bigMap ⟨0, 0, []⟩ int int).Holds true (.entries (some id) pairs) := by
      cases h with
      | map hk hv hs => exact .loaded rfl hid hk hv hs
    have hnewBig := hload 5 rfl hnewMap
    have holdBig := hload 4 rfl holdMap
    have hm := (diff_eq_ok_iff hnewBig holdBig).2 ⟨_, slots, _, rfl, rfl, hslots, rfl⟩
    exact ⟨_, hm, hbigMaps _ int int _ _ newPairs oldPairs _ hnewBig holdBig hm, rfl⟩

end Micheline.Ty
