/-
Micheline/Proofs/Value/Elements.lean

What the children of a set say beside an earlier one (`Ty.ClassifiesElements`).  A set has a
child for each element of either set, in ascending order, marked by the sets that the element
is in.
-/
import Micheline.Proofs.Value.Current
import Micheline.Proofs.Value.Merge

namespace Micheline

open Sorted

/-! ### Marks -/

/-- The presentation with a mark on all its nodes, if there is a mark. -/
def Presentation.marked : Option Change → Presentation → Presentation
  | none, p => p
  | some c, p => p.mark c

/-- A mark says whether something is there now and whether it was there before. -/
structure Classifies (mark : Option Change) (now before : Prop) : Prop where
  created : mark = some .create ↔ now ∧ ¬ before
  deleted : mark = some .delete ↔ ¬ now ∧ before
  unmarked : mark = none ↔ now ∧ before

namespace Classifies

variable {now before : Prop}

theorem of_stayed (hnow : now) (hbefore : before) : Classifies none now before where
  created := iff_of_false (by simp) fun h => h.2 hbefore
  deleted := iff_of_false (by simp) fun h => h.1 hnow
  unmarked := iff_of_true rfl ⟨hnow, hbefore⟩

theorem of_came (hnow : now) (hbefore : ¬ before) : Classifies (some .create) now before where
  created := iff_of_true rfl ⟨hnow, hbefore⟩
  deleted := iff_of_false (by simp) fun h => h.1 hnow
  unmarked := iff_of_false (by simp) fun h => hbefore h.2

theorem of_went (hnow : ¬ now) (hbefore : before) : Classifies (some .delete) now before where
  created := iff_of_false (by simp) fun h => hnow h.1
  deleted := iff_of_true rfl ⟨hnow, hbefore⟩
  unmarked := iff_of_false (by simp) fun h => hnow h.1

end Classifies

namespace Ty

variable {elem : Ty} {new old : List Val} {ss : List Slot}

/-- What the child of an element says of it beside two sets: it presents the element, marked
by the sets that it is in. -/
def ElementChild (elem : Ty) (new old : List Val) (x : Val) (c : Presentation) : Prop :=
  ∃ p, (elementPiece elem x).present = .ok p ∧ c = p.marked c.change
    ∧ Classifies c.change (Has elem.compare new x) (Has elem.compare old x)

/-- **The child of a slot** says what the slot tells. -/
theorem elementChild_of_isElement {slot : Slot} {c : Presentation}
    (hslot : slot.IsElement elem new old) (hnew : ∀ x ∈ new, elem.Holds true x)
    (hselfn : ∀ x ∈ new, elem.compare x x = .ok .eq)
    (hselfo : ∀ x ∈ old, elem.compare x x = .ok .eq) (h : slot.child = .ok c) :
    ElementChild elem new old slot.element c := by
  have hc := isOrder_compare elem
  cases hslot with
  | @same a b ha hb hab =>
    have hplain : c.IsPlain := isPlain_of_piece (hnew a ha) h
    -- An element is in its own set since it equals itself, which needs that it decodes.
    have hhas : Has elem.compare new a := ⟨a, ha, hselfn a ha⟩
    have hhad : Has elem.compare old a := ⟨b, hb, hc.swap hab⟩
    refine ⟨c, h, ?_, ?_⟩
    · rw [hplain.change]
      rfl
    · rw [hplain.change]
      exact .of_stayed hhas hhad
  | @fresh a ha hne =>
    obtain ⟨p, hp, rfl⟩ := exists_present_of_fresh h
    have hhas : Has elem.compare new a := ⟨a, ha, hselfn a ha⟩
    refine ⟨p, hp, ?_, ?_⟩
    · rw [p.change_mark]
      rfl
    · rw [p.change_mark]
      exact .of_came hhas hne
  | @gone b hb hne =>
    obtain ⟨p, hp, rfl⟩ := exists_present_of_gone h
    have hhad : Has elem.compare old b := ⟨b, hb, hselfo b hb⟩
    refine ⟨p, hp, ?_, ?_⟩
    · rw [p.change_mark]
      rfl
    · rw [p.change_mark]
      exact .of_went hne hhad

/-- What has decoding literals is equal to itself. -/
theorem compare_self_of_decodes (helem : elem.isComparable = true) {x : Val}
    (hx : elem.Holds true x) (hd : elem.Decodes x) : elem.compare x x = .ok .eq :=
  (isOrder_compare elem).self_eq
    ((compares helem hx hx).resolve_right fun h => h.1 ⟨hd, hd⟩)

/-- **The children of a set beside an earlier one**: the elements of both, gathered. -/
def ClassifiesElements (elem : Ty) (new old : List Val) (cs : List Presentation) : Prop :=
  ∃ es, Gathers elem.compare (new ++ old) es ∧ List.Forall₂ (ElementChild elem new old) es cs

/-- The children of a set beside an earlier one classify the elements of both. -/
theorem classifiesElements_of_diff {i : Info} {m : Presentation}
    (helem : elem.isComparable = true) (hnew : (set i elem).Holds true (.items new))
    (hold : (set i elem).Holds true (.items old)) (hdnew : (set i elem).Decodes (.items new))
    (hdold : (set i elem).Decodes (.items old))
    (h : (set i elem).diff (.items new) (set i elem) (.items old) = .ok m) :
    ClassifiesElements elem new old m.children := by
  obtain ⟨d, ss, cs, -, hss, hcs, rfl⟩ := (diff_eq_ok_iff hnew hold).1 h
  cases hnew with
  | set hnew hnews =>
    cases hold with
    | set hold holds =>
      -- Texts that decode make an element equal to itself, which the classes are about.
      have hselfn : ∀ x ∈ new, elem.compare x x = .ok .eq := fun x hx =>
        compare_self_of_decodes helem (hnew x hx) fun p hp =>
          hdnew p (List.mem_flatMap.2 ⟨x, hx, hp⟩)
      have hselfo : ∀ x ∈ old, elem.compare x x = .ok .eq := fun x hx =>
        compare_self_of_decodes helem (hold x hx) fun p hp =>
          hdold p (List.mem_flatMap.2 ⟨x, hx, hp⟩)
      have hmerges := merges_elementSlots (.of_eq_ok hss) hnews holds hselfn hselfo
      refine ⟨ss.map Slot.element, hmerges.gathers hnews holds, ?_⟩
      rw [List.forall₂_map_left_iff]
      refine forall₂_of_mapM hcs fun slot hslot c hc => ?_
      exact elementChild_of_isElement (hmerges.elements slot hslot) hnew hselfn hselfo hc

end Ty

end Micheline
