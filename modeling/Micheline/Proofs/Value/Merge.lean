/-
Micheline/Proofs/Value/Merge.lean

The slots of two sets are those of a merge.  What carries the induction is that each slot tells
rightly in which of the sets its element is (`Slot.IsElement`), while every element has a slot
and the elements of the slots ascend (`Ty.Merges`).  That an element is not in the rest of a
list is known because the list ascends.
-/
import Micheline.Proofs.Value.Gather
import Micheline.Proofs.Value.Slots

namespace Micheline

namespace Sorted

variable {ε κ ν : Type} {cmp : κ → κ → Except ε Ordering} {x y : κ} {xs : List κ}

/-- A key that is equal to the one sought is there. -/
def Has (cmp : κ → κ → Except ε Ordering) (xs : List κ) (x : κ) : Prop :=
  ∃ y ∈ xs, cmp y x = .ok .eq

/-- What is less than all keys is not there. -/
theorem not_has_of_forall_lt (hc : IsOrder cmp) (h : ∀ y ∈ xs, cmp x y = .ok .lt) :
    ¬ Has cmp xs x := by
  rintro ⟨y, hy, heq⟩
  cases (hc.swap (h y hy)).symm.trans heq

/-- What is greater than the first key is there if it is among the others. -/
theorem has_cons_iff_of_lt (h : cmp y x = .ok .lt) : Has cmp (y :: xs) x ↔ Has cmp xs x := by
  constructor
  · rintro ⟨z, hz, heq⟩
    rcases List.mem_cons.1 hz with rfl | hz
    · cases h.symm.trans heq
    · exact ⟨z, hz, heq⟩
  · rintro ⟨z, hz, heq⟩
    exact ⟨z, List.mem_cons_of_mem y hz, heq⟩

/-- A search finds the entry at the key, or there is none. -/
theorem findPair?_cases (hc : IsOrder cmp) {key : κ} {pairs : List (κ × ν)}
    (hp : Ascending cmp (pairs.map (·.1))) {found : Option (κ × ν)}
    (h : findPair? cmp key pairs = .ok found) :
    (found = none ∧ ¬ Has cmp (pairs.map (·.1)) key)
      ∨ ∃ q ∈ pairs, cmp q.1 key = .ok .eq ∧ found = some q := by
  cases found with
  | none =>
    refine .inl ⟨rfl, ?_⟩
    rintro ⟨k, hk, heq⟩
    obtain ⟨q, hq, rfl⟩ := List.mem_map.1 hk
    cases h.symm.trans (findPair?_of_mem hc hp hq heq)
  | some q =>
    obtain ⟨hq, heq⟩ := of_findPair?_eq_some h
    exact .inr ⟨q, hq, heq, rfl⟩

end Sorted

open Sorted

namespace Slot

/-- The value in a slot, the one that is there now if there is one. -/
def element : Slot → Val
  | .both x _ => x.part.val
  | .same x _ => x.part.val
  | .fresh x => x.part.val
  | .gone y => y.part.val

/-- The slot tells in which of two sets its element is. -/
inductive IsElement (elem : Ty) (new old : List Val) : Slot → Prop
  | same {a b} (ha : a ∈ new) (hb : b ∈ old) (hab : elem.compare a b = .ok .eq) :
      IsElement elem new old (.same (Ty.elementPiece elem a) (Ty.elementPiece elem b))
  | fresh {a} (ha : a ∈ new) (hold : ¬ Has elem.compare old a) :
      IsElement elem new old (.fresh (Ty.elementPiece elem a))
  | gone {b} (hb : b ∈ old) (hnew : ¬ Has elem.compare new b) :
      IsElement elem new old (.gone (Ty.elementPiece elem b))

variable {elem : Ty} {new old new' old' : List Val} {slot : Slot}

/-- The element of a slot is from one of the sets. -/
theorem IsElement.mem (h : slot.IsElement elem new old) :
    slot.element ∈ new ∨ slot.element ∈ old := by
  cases h with
  | same ha _ _ | fresh ha _ => exact .inl ha
  | gone hb _ => exact .inr hb

/-- What the slot tells stays true where the sets get elements that are not equal to it. -/
theorem IsElement.weaken (h : slot.IsElement elem new old) (hnew : new ⊆ new') (hold : old ⊆ old')
    (hn : Has elem.compare new' slot.element → Has elem.compare new slot.element)
    (ho : Has elem.compare old' slot.element → Has elem.compare old slot.element) :
    slot.IsElement elem new' old' := by
  cases h with
  | same ha hb hab => exact .same (hnew ha) (hold hb) hab
  | fresh ha hne => exact .fresh (hnew ha) fun h => hne (ho h)
  | gone hb hne => exact .gone (hold hb) fun h => hne (hn h)

end Slot

namespace Ty

variable {elem : Ty} {new old : List Val} {ss : List Slot}

/-- The slots of two sets: each tells rightly where its element is, their elements ascend, and
no element of the sets is left out. -/
structure Merges (elem : Ty) (new old : List Val) (ss : List Slot) : Prop where
  elements : ∀ slot ∈ ss, slot.IsElement elem new old
  ascending : Ascending elem.compare (ss.map Slot.element)
  all : ∀ x ∈ new ++ old, Has elem.compare (ss.map Slot.element) x

/-- A slot in front of those of the rest, where its element is less than theirs. -/
theorem Merges.cons {new' old' : List Val} {slot : Slot} (h : Merges elem new old ss)
    (hslot : slot.IsElement elem new' old') (hnew : new ⊆ new') (hold : old ⊆ old')
    (hrest : ∀ x, x ∈ new ∨ x ∈ old → elem.compare slot.element x = .ok .lt
      ∧ (Has elem.compare new' x → Has elem.compare new x)
      ∧ (Has elem.compare old' x → Has elem.compare old x))
    (hall : ∀ x ∈ new' ++ old', x ∈ new ++ old ∨ elem.compare slot.element x = .ok .eq) :
    Merges elem new' old' (slot :: ss) where
  elements := by
    refine List.forall_mem_cons.2 ⟨hslot, fun s hs => ?_⟩
    have hs := h.elements s hs
    obtain ⟨-, hn, ho⟩ := hrest _ hs.mem
    exact hs.weaken hnew hold hn ho
  ascending := by
    refine List.pairwise_cons.2 ⟨fun x hx => ?_, h.ascending⟩
    obtain ⟨s, hs, rfl⟩ := List.mem_map.1 hx
    exact (hrest _ (h.elements s hs).mem).1
  all x hx := by
    rcases hall x hx with hx | heq
    · obtain ⟨y, hy, heq⟩ := h.all x hx
      exact ⟨y, List.mem_cons_of_mem _ hy, heq⟩
    · exact ⟨_, List.mem_cons_self, heq⟩

theorem map_element_fresh :
    (new.map fun a => Slot.fresh (elementPiece elem a)).map Slot.element = new := by
  rw [List.map_map]
  exact List.map_id new

theorem map_element_gone :
    (old.map fun b => Slot.gone (elementPiece elem b)).map Slot.element = old := by
  rw [List.map_map]
  exact List.map_id old

/-- All elements are new. -/
theorem Merges.of_new (hnew : Ascending elem.compare new)
    (hself : ∀ x ∈ new, elem.compare x x = .ok .eq) :
    Merges elem new [] (new.map fun a => .fresh (elementPiece elem a)) where
  elements := List.forall_mem_map.2 fun _ ha =>
    .fresh ha (not_has_of_forall_lt (isOrder_compare elem) (List.forall_mem_nil _))
  ascending := by rwa [map_element_fresh]
  all x hx := by
    rw [List.append_nil] at hx
    rw [map_element_fresh]
    exact ⟨x, hx, hself x hx⟩

/-- All elements are gone. -/
theorem Merges.of_old (hold : Ascending elem.compare old)
    (hself : ∀ x ∈ old, elem.compare x x = .ok .eq) :
    Merges elem [] old (old.map fun b => .gone (elementPiece elem b)) where
  elements := List.forall_mem_map.2 fun _ hb =>
    .gone hb (not_has_of_forall_lt (isOrder_compare elem) (List.forall_mem_nil _))
  ascending := by rwa [map_element_gone]
  all x hx := by
    rw [map_element_gone]
    exact ⟨x, hx, hself x hx⟩

/-- The first elements of both sets are equal. -/
theorem Merges.same {a b : Val} (h : Merges elem new old ss)
    (hnew : Ascending elem.compare (a :: new)) (hold : Ascending elem.compare (b :: old))
    (hself : elem.compare a a = .ok .eq) (hab : elem.compare a b = .ok .eq) :
    Merges elem (a :: new) (b :: old)
      (.same (elementPiece elem a) (elementPiece elem b) :: ss) := by
  have hc := isOrder_compare elem
  have ha := (List.pairwise_cons.1 hnew).1
  have hb := (List.pairwise_cons.1 hold).1
  -- Both heads are below everything that is left, so neither of their classes comes again.
  have hless : ∀ x, x ∈ new ∨ x ∈ old →
      elem.compare a x = .ok .lt ∧ elem.compare b x = .ok .lt := by
    rintro x (hx | hx)
    · exact ⟨ha x hx, hc.congr hab (ha x hx)⟩
    · exact ⟨hc.congr (hc.swap hab) (hb x hx), hb x hx⟩
  refine h.cons (.same List.mem_cons_self List.mem_cons_self hab) (List.subset_cons_self a new)
    (List.subset_cons_self b old) (fun x hx => ?_) fun x hx => ?_
  · obtain ⟨hax, hbx⟩ := hless x hx
    exact ⟨hax, (has_cons_iff_of_lt hax).1, (has_cons_iff_of_lt hbx).1⟩
  · rcases List.mem_append.1 hx with hx | hx
    · rcases List.mem_cons.1 hx with rfl | hx
      · exact .inr hself
      · exact .inl (List.mem_append_left _ hx)
    · rcases List.mem_cons.1 hx with rfl | hx
      · exact .inr hab
      · exact .inl (List.mem_append_right _ hx)

/-- The first new element is less than all others of both sets. -/
theorem Merges.fresh {a : Val} (h : Merges elem new old ss)
    (hnew : Ascending elem.compare (a :: new)) (hold : ∀ x ∈ old, elem.compare a x = .ok .lt)
    (hself : elem.compare a a = .ok .eq) :
    Merges elem (a :: new) old (.fresh (elementPiece elem a) :: ss) := by
  have ha := (List.pairwise_cons.1 hnew).1
  refine h.cons (.fresh List.mem_cons_self (not_has_of_forall_lt (isOrder_compare elem) hold))
    (List.subset_cons_self a new) (List.Subset.refl old) (fun x hx => ?_) fun x hx => ?_
  · have hax : elem.compare a x = .ok .lt := hx.elim (ha x) (hold x)
    exact ⟨hax, (has_cons_iff_of_lt hax).1, id⟩
  · rcases List.mem_cons.1 hx with rfl | hx
    · exact .inr hself
    · exact .inl hx

/-- The first old element is less than all others of both sets. -/
theorem Merges.gone {b : Val} (h : Merges elem new old ss)
    (hold : Ascending elem.compare (b :: old)) (hnew : ∀ x ∈ new, elem.compare b x = .ok .lt)
    (hself : elem.compare b b = .ok .eq) :
    Merges elem new (b :: old) (.gone (elementPiece elem b) :: ss) := by
  have hb := (List.pairwise_cons.1 hold).1
  refine h.cons (.gone List.mem_cons_self (not_has_of_forall_lt (isOrder_compare elem) hnew))
    (List.Subset.refl new) (List.subset_cons_self b old) (fun x hx => ?_) fun x hx => ?_
  · have hbx : elem.compare b x = .ok .lt := hx.elim (hnew x) (hb x)
    exact ⟨hbx, id, (has_cons_iff_of_lt hbx).1⟩
  · rcases List.mem_append.1 hx with hx | hx
    · exact .inl (List.mem_append_left _ hx)
    · rcases List.mem_cons.1 hx with rfl | hx
      · exact .inr hself
      · exact .inl (List.mem_append_right _ hx)

/-- **Merging two ascending lists** classifies their elements. -/
theorem merges_elementSlots (h : ElementSlots elem new old ss)
    (hnew : Ascending elem.compare new) (hold : Ascending elem.compare old)
    (hselfn : ∀ x ∈ new, elem.compare x x = .ok .eq)
    (hselfo : ∀ x ∈ old, elem.compare x x = .ok .eq) : Merges elem new old ss := by
  have hc := isOrder_compare elem
  induction h with
  | old => exact .of_old hold hselfo
  | new => exact .of_new hnew hselfn
  | same hab _ ih =>
    obtain ⟨hselfa, hselfn'⟩ := List.forall_mem_cons.1 hselfn
    have hrest := ih (List.Pairwise.of_cons hnew) (List.Pairwise.of_cons hold) hselfn'
      (List.forall_mem_cons.1 hselfo).2
    exact hrest.same hnew hold hselfa hab
  | fresh hab _ ih =>
    obtain ⟨hselfa, hselfn'⟩ := List.forall_mem_cons.1 hselfn
    have hb := (List.pairwise_cons.1 hold).1
    exact (ih (List.Pairwise.of_cons hnew) hold hselfn' hselfo).fresh hnew
      (List.forall_mem_cons.2 ⟨hab, fun x hx => hc.lt_trans hab (hb x hx)⟩) hselfa
  | gone hab _ ih =>
    obtain ⟨hselfb, hselfo'⟩ := List.forall_mem_cons.1 hselfo
    have ha := (List.pairwise_cons.1 hnew).1
    have hba := hc.swap hab
    exact (ih hnew (List.Pairwise.of_cons hold) hselfn hselfo').gone hold
      (List.forall_mem_cons.2 ⟨hba, fun x hx => hc.lt_trans hba (ha x hx)⟩) hselfb

/-- The elements of the slots are those of both sets, gathered. -/
theorem Merges.gathers (h : Merges elem new old ss) (hnew : Ascending elem.compare new)
    (hold : Ascending elem.compare old) :
    Gathers elem.compare (new ++ old) (ss.map Slot.element) := by
  have hc := isOrder_compare elem
  -- in an ascending list nothing before an element is equal to it
  have hfirst {xs before after : List Val} {y : Val} (hxs : Ascending elem.compare xs)
      (hsplit : xs = before ++ y :: after) : ∀ x ∈ before, elem.compare x y ≠ .ok .eq := by
    intro x hx heq
    rw [hsplit] at hxs
    have hlt := (List.pairwise_append.1 hxs).2.2 x hx y List.mem_cons_self
    cases hlt.symm.trans heq
  have hnow {a : Val} (ha : a ∈ new) : ∃ before after, new ++ old = before ++ a :: after
      ∧ ∀ x ∈ before, elem.compare x a ≠ .ok .eq := by
    obtain ⟨before, after, hsplit⟩ := List.append_of_mem ha
    refine ⟨before, after ++ old, ?_, hfirst hnew hsplit⟩
    rw [hsplit, List.append_assoc, List.cons_append]
  refine ⟨h.ascending, fun x hx => ?_, fun y hy => ?_⟩
  · obtain ⟨y, hy, heq⟩ := h.all x hx
    refine ⟨y, ⟨hy, heq⟩, ?_⟩
    rintro z ⟨hz, hzx⟩
    have hzy : elem.compare z y = .ok .eq := hc.trans hzx (hc.swap heq) (by simp) (by simp)
    exact hc.eq_of_ascending h.ascending hz hy hzy
  · obtain ⟨slot, hslot, rfl⟩ := List.mem_map.1 hy
    cases h.elements slot hslot with
    | same ha _ _ | fresh ha _ => exact hnow ha
    | @gone b hb hne =>
      obtain ⟨before, after, hsplit⟩ := List.append_of_mem hb
      refine ⟨new ++ before, after, ?_, fun x hx => ?_⟩
      · rw [hsplit, List.append_assoc]
        rfl
      · rcases List.mem_append.1 hx with hx | hx
        · exact fun heq => hne ⟨x, hx, heq⟩
        · exact hfirst hold hsplit x hx

end Ty

end Micheline
