/-
Micheline/Proofs/Value/Cover.lean

The slots of a value beside an earlier one hold every piece of both (`Slot.Cover`): those
that are there now in their order, and each of those that were there before, and nothing
else.  Pieces that share a slot have one type and are called alike.

Where a slot holds a piece beside an earlier one, the two stand at the same place in their
values (`Beside`); the place is said without the slots, by members, leaves, items and keys.
-/
import Micheline.Proofs.Value.Beside

namespace Micheline

open Ty

/-! ### Slots and pieces -/

/-- Two children are called alike, keys as far as they are equal. -/
inductive Label.Alike : Label → Label → Prop
  | own : Alike .own .own
  | place (index : Nat) : Alike (.place index) (.place index)
  | key {ty : Ty} {a b : Val} (h : ty.compare a b = .ok .eq) : Alike (.key ⟨ty, a⟩) (.key ⟨ty, b⟩)

namespace Slot

/-- What shares a slot is of one type and called alike, and elements are equal. -/
def Sound : Slot → Prop
  | .both x y => x.part.ty = y.part.ty ∧ x.label.Alike y.label
  | .same x y => x.part.ty = y.part.ty ∧ x.label.Alike y.label
    ∧ x.part.ty.compare x.part.val y.part.val = .ok .eq
  | _ => True

/-- The slots hold the pieces of two values. -/
structure Cover (xs ys : List Piece) (ss : List Slot) : Prop where
  new : ss.filterMap new? = xs
  old : ∀ y, y ∈ ys ↔ ∃ slot ∈ ss, slot.old? = some y
  sound : ∀ slot ∈ ss, slot.Sound

variable {x y : Piece} {xs ys : List Piece} {ss : List Slot}

theorem cover_nil : Cover [] [] [] where
  new := rfl
  old := by simp
  sound := nofun

/-- One more slot holds its own pieces. -/
theorem Cover.cons (h : Cover xs ys ss) (slot : Slot) (hslot : slot.Sound) :
    Cover (slot.new?.toList ++ xs) (slot.old?.toList ++ ys) (slot :: ss) where
  new := by
    rw [← h.new]
    cases slot <;> rfl
  old y := by simp [h.old]
  sound := List.forall_mem_cons.2 ⟨hslot, h.sound⟩

theorem cover_fresh (xs : List Piece) : Cover xs [] (xs.map .fresh) := by
  induction xs with
  | nil => exact cover_nil
  | cons x xs ih => exact ih.cons (.fresh x) trivial

theorem cover_gone (ys : List Piece) : Cover [] ys (ys.map .gone) := by
  induction ys with
  | nil => exact cover_nil
  | cons y ys ih => exact ih.cons (.gone y) trivial

/-- Pieces that are aligned are covered, if those beside each other are alike. -/
theorem cover_align (h : ∀ p ∈ xs.zip ys, p.1.part.ty = p.2.part.ty ∧ p.1.label.Alike p.2.label) :
    Cover xs ys (align xs ys) := by
  induction xs generalizing ys with
  | nil => exact cover_gone ys
  | cons x xs ih =>
    cases ys with
    | nil => exact cover_fresh (x :: xs)
    | cons y ys =>
      rw [List.zip_cons_cons] at h
      obtain ⟨hslot, hrest⟩ := List.forall_mem_cons.1 h
      exact (ih hrest).cons (.both x y) hslot

/-! ### Sets -/

/-- The slots of a set hold the elements of both sets. -/
theorem cover_elementSlots {elem : Ty} {new old : List Val} (h : ElementSlots elem new old ss) :
    Cover (new.map (elementPiece elem)) (old.map (elementPiece elem)) ss := by
  induction h with
  | old old =>
    have hgone := cover_gone (old.map (elementPiece elem))
    rwa [List.map_map] at hgone
  | new new =>
    have hfresh := cover_fresh (new.map (elementPiece elem))
    rwa [List.map_map] at hfresh
  | same hab _ ih => exact ih.cons (.same _ _) ⟨rfl, .key hab, hab⟩
  | fresh _ _ ih => exact ih.cons (.fresh _) trivial
  | gone _ _ ih => exact ih.cons (.gone _) trivial

/-! ### Maps -/

section Entries

variable {key value : Ty} {p q : Val × Val} {new old : List (Val × Val)} {slot : Slot}
  {lost : Option Slot}

/-- The slot of an entry that is there now: beside the earlier one with an equal key, or fresh. -/
theorem keptSlot_eq_ok_iff : keptSlot key value old p = .ok slot
    ↔ (∃ q, Sorted.findPair? key.compare p.1 old = .ok (some q)
        ∧ slot = .both (entryPiece key value p) (entryPiece key value q))
      ∨ (Sorted.findPair? key.compare p.1 old = .ok none
        ∧ slot = .fresh (entryPiece key value p)) := by
  rw [keptSlot]
  rcases Sorted.findPair? key.compare p.1 old with e | - | q
  · exact ⟨by rintro ⟨⟩, by simp⟩
  · show Except.ok _ = Except.ok slot ↔ _
    simp [eq_comm]
  · show Except.ok _ = Except.ok slot ↔ _
    simp [eq_comm]

/-- An earlier entry has a slot of its own only if its key is gone. -/
theorem lostSlot_eq_ok_iff : lostSlot key value new q = .ok lost
    ↔ (∃ p, Sorted.findPair? key.compare q.1 new = .ok (some p) ∧ lost = none)
      ∨ (Sorted.findPair? key.compare q.1 new = .ok none
        ∧ lost = some (.gone (entryPiece key value q))) := by
  rw [lostSlot]
  rcases Sorted.findPair? key.compare q.1 new with e | - | p
  · exact ⟨by rintro ⟨⟩, by simp⟩
  · show Except.ok _ = Except.ok lost ↔ _
    simp [eq_comm]
  · show Except.ok _ = Except.ok lost ↔ _
    simp [eq_comm]

/-- The slots of a map are those of its entries, then those of the entries that are gone. -/
theorem entrySlots_eq_ok_iff : entrySlots key value new old = .ok ss
    ↔ ∃ kept lost, new.mapM (keptSlot key value old) = .ok kept
      ∧ old.mapM (lostSlot key value new) = .ok lost ∧ ss = kept ++ lost.filterMap id := by
  rw [entrySlots, bind_eq_ok_iff]
  constructor
  · rintro ⟨kept, hkept, h⟩
    obtain ⟨lost, hlost, h⟩ := bind_eq_ok_iff.1 h
    exact ⟨kept, lost, hkept, hlost, (pure_eq_ok_iff.1 h).symm⟩
  · rintro ⟨kept, lost, hkept, hlost, rfl⟩
    exact ⟨kept, hkept, bind_eq_ok_iff.2 ⟨lost, hlost, rfl⟩⟩

/-- The entries that are kept stand in front. -/
theorem filterMap_new?_of_mapM_keptSlot {kept : List Slot}
    (h : new.mapM (keptSlot key value old) = .ok kept) :
    kept.filterMap new? = new.map (entryPiece key value) := by
  replace h := mapM_eq_ok_iff.1 h
  induction h with
  | nil => rfl
  | cons hslot _ ih =>
    obtain ⟨q, -, rfl⟩ | ⟨-, rfl⟩ := keptSlot_eq_ok_iff.1 hslot
    · rw [List.map_cons, ← ih]
      rfl
    · rw [List.map_cons, ← ih]
      rfl

theorem exists_of_mem_lost {losses : List (Option Slot)}
    (h : old.mapM (lostSlot key value new) = .ok losses) (hslot : slot ∈ losses.filterMap id) :
    ∃ q ∈ old, slot = .gone (entryPiece key value q) := by
  obtain ⟨lost, hmem, rfl⟩ := List.mem_filterMap.1 hslot
  obtain ⟨q, hq, hlost⟩ := exists_of_mem_mapM h _ hmem
  obtain ⟨p, -, he⟩ | ⟨-, he⟩ := lostSlot_eq_ok_iff.1 hlost
  · cases he
  · exact ⟨q, hq, Option.some.inj he⟩

/-- Each earlier entry has a slot: that of the entry at its key, or one of its own. -/
theorem exists_slot_of_mem_old (hold : Sorted.Ascending key.compare (old.map (·.1)))
    {kept : List Slot} {losses : List (Option Slot)}
    (hkept : new.mapM (keptSlot key value old) = .ok kept)
    (hlost : old.mapM (lostSlot key value new) = .ok losses) (hq : q ∈ old) :
    ∃ slot ∈ kept ++ losses.filterMap id, slot.old? = some (entryPiece key value q) := by
  have hc := isOrder_compare key
  obtain ⟨lost, hmem, hslot⟩ := exists_of_mem_of_mapM hlost q hq
  obtain ⟨p, hp, rfl⟩ | ⟨-, rfl⟩ := lostSlot_eq_ok_iff.1 hslot
  · -- the entry is found from the other side as well
    obtain ⟨hmemp, hkey⟩ := Sorted.of_findPair?_eq_some hp
    obtain ⟨slot, hslotmem, hslot⟩ := exists_of_mem_of_mapM hkept p hmemp
    have hfind := Sorted.findPair?_of_mem hc hold hq (hc.swap hkey)
    obtain ⟨q', hq', rfl⟩ | ⟨hnone, -⟩ := keptSlot_eq_ok_iff.1 hslot
    · obtain rfl := Option.some.inj (Except.ok.inj (hfind.symm.trans hq'))
      exact ⟨_, List.mem_append_left _ hslotmem, rfl⟩
    · cases hfind.symm.trans hnone
  · exact ⟨_, List.mem_append_right _ (List.mem_filterMap.2 ⟨_, hmem, rfl⟩), rfl⟩

/-- The slots of a map hold the entries of both maps. -/
theorem cover_entrySlots (hold : Sorted.Ascending key.compare (old.map (·.1)))
    (h : entrySlots key value new old = .ok ss) :
    Cover (new.map (entryPiece key value)) (old.map (entryPiece key value)) ss := by
  have hc := isOrder_compare key
  obtain ⟨kept, losses, hkept, hlost, rfl⟩ := entrySlots_eq_ok_iff.1 h
  refine ⟨?_, ?_, ?_⟩
  -- The kept slots hold all that is new; what was lost only holds earlier entries.
  · have hgone : (losses.filterMap id).filterMap new? = [] := by
      refine List.filterMap_eq_nil_iff.2 fun slot hslot => ?_
      obtain ⟨q, -, rfl⟩ := exists_of_mem_lost hlost hslot
      rfl
    rw [List.filterMap_append, filterMap_new?_of_mapM_keptSlot hkept, hgone, List.append_nil]
  · intro y
    constructor
    · intro hy
      obtain ⟨q, hq, rfl⟩ := List.mem_map.1 hy
      exact exists_slot_of_mem_old hold hkept hlost hq
    · rintro ⟨slot, hslot, hy⟩
      rcases List.mem_append.1 hslot with hslot | hslot
      · obtain ⟨p, -, hp⟩ := exists_of_mem_mapM hkept slot hslot
        obtain ⟨q, hq, rfl⟩ | ⟨-, rfl⟩ := keptSlot_eq_ok_iff.1 hp
        · obtain rfl := Option.some.inj hy
          exact List.mem_map_of_mem (Sorted.of_findPair?_eq_some hq).1
        · cases hy
      · obtain ⟨q, hq, rfl⟩ := exists_of_mem_lost hlost hslot
        obtain rfl := Option.some.inj hy
        exact List.mem_map_of_mem hq
  · intro slot hslot
    rcases List.mem_append.1 hslot with hslot | hslot
    · obtain ⟨p, -, hp⟩ := exists_of_mem_mapM hkept slot hslot
      obtain ⟨q, hq, rfl⟩ | ⟨-, rfl⟩ := keptSlot_eq_ok_iff.1 hp
      · exact ⟨rfl, .key (hc.swap (Sorted.of_findPair?_eq_some hq).2)⟩
      · trivial
    · obtain ⟨q, -, rfl⟩ := exists_of_mem_lost hlost hslot
      trivial

end Entries

/-! ### All values -/

theorem alike_of_mem_zip_itemPieces {elem : Ty} {index : Nat} {new old : List Val}
    {p : Piece × Piece} (hp : p ∈ (itemPieces elem index new).zip (itemPieces elem index old)) :
    p.1.part.ty = p.2.part.ty ∧ p.1.label.Alike p.2.label := by
  induction new generalizing index old with
  | nil => cases hp
  | cons a new ih =>
    cases old with
    | nil => cases hp
    | cons b old =>
      rcases List.mem_cons.1 hp with rfl | hp
      · exact ⟨rfl, .place index⟩
      · exact ih hp

theorem alike_of_mem_zip_members {xs ys : List Typed} (h : xs.map (·.ty) = ys.map (·.ty))
    {p : Piece × Piece}
    (hp : p ∈ (xs.map fun m => Piece.mk m .own).zip (ys.map fun m => Piece.mk m .own)) :
    p.1.part.ty = p.2.part.ty ∧ p.1.label.Alike p.2.label := by
  induction xs generalizing ys with
  | nil => cases hp
  | cons x xs ih =>
    cases ys with
    | nil => cases hp
    | cons y ys =>
      obtain ⟨hty, hrest⟩ := List.cons.inj h
      rcases List.mem_cons.1 hp with rfl | hp
      · exact ⟨hty, .own⟩
      · exact ih hrest hp

theorem alike_of_mem_zip_optionPieces {i : Info} {t : Ty} {v w : Val} {p : Piece × Piece}
    (hp : p ∈ ((option i t).pieces v).zip ((option i t).pieces w)) :
    p.1.part.ty = p.2.part.ty ∧ p.1.label.Alike p.2.label := by
  obtain ⟨hx, hy⟩ := List.of_mem_zip hp
  obtain ⟨n, hx⟩ := List.mem_iff_getElem?.1 hx
  obtain ⟨m, hy⟩ := List.mem_iff_getElem?.1 hy
  obtain ⟨-, a, -, hx⟩ := of_getElem?_optionPieces hx
  obtain ⟨-, b, -, hy⟩ := of_getElem?_optionPieces hy
  rw [hx, hy]
  exact ⟨rfl, .own⟩

/-- **The slots of a value beside an earlier one hold the pieces of both.** -/
theorem cover_slots {loaded : Bool} {ty : Ty} {v w : Val} (hv : ty.Holds loaded v)
    (hw : ty.Holds loaded w) (h : ty.slots v w = .ok ss) :
    Cover (ty.pieces v) (ty.pieces w) ss := by
  induction ty generalizing v w with
  | pair i l r =>
    obtain rfl := Except.ok.inj h
    -- Members depend on the type alone, so the two lists agree type by type.
    have htys := (map_ty_members hv).trans (map_ty_members hw).symm
    exact cover_align fun p hp => alike_of_mem_zip_members htys hp
  | or i l r =>
    obtain ⟨path, x, path', y, hx, hy, ⟨rfl, rfl⟩ | ⟨-, rfl⟩⟩ := slots_or_cases hv hw h
    · rw [pieces, pieces, hx, hy]
      exact cover_nil.cons (.both ⟨x, .own⟩ ⟨y, .own⟩) ⟨ty_eq_of_activeLeaf? hx hy, .own⟩
    · rw [pieces, pieces, hx, hy]
      exact (cover_nil.cons (.gone ⟨y, .own⟩) trivial).cons (.fresh ⟨x, .own⟩) trivial
  | option i t =>
    obtain rfl := Except.ok.inj h
    exact cover_align fun p hp => alike_of_mem_zip_optionPieces hp
  | list i elem =>
    cases hv with
    | list _ =>
      cases hw with
      | list _ =>
        obtain rfl := Except.ok.inj h
        exact cover_align fun p hp => alike_of_mem_zip_itemPieces hp
  | set i elem =>
    cases hv with
    | set _ _ =>
      cases hw with
      | set _ _ => exact cover_elementSlots (.of_eq_ok h)
  | map i key value =>
    cases hv with
    | map _ _ _ =>
      cases hw with
      | map _ _ hold => exact cover_entrySlots hold h
  | bigMap i key value =>
    obtain ⟨pointer, new, rfl⟩ := exists_entries_of_holds hv
    cases hw with
    | bigMap _ _ hold => exact cover_entrySlots hold h
    | pointer _ => exact cover_entrySlots List.Pairwise.nil h
    | loaded _ _ _ _ hold => exact cover_entrySlots hold h
  | ticket i content paired _ ih =>
    cases hv with
    | ticket hv =>
      cases hw with
      | ticket hw => exact ih hv hw h
  | _ =>
    rw [slots_of_isLeaf rfl] at h
    obtain rfl := Except.ok.inj h
    rw [pieces_of_isLeaf rfl, pieces_of_isLeaf rfl]
    exact cover_nil

/-! ### Places -/

/-- Pieces that are aligned stand at one place. -/
theorem getElem?_align {i : Nat} (h : (align xs ys)[i]? = some (.both x y)) :
    xs[i]? = some x ∧ ys[i]? = some y := by
  induction xs generalizing ys i with
  | nil =>
    rw [align, List.getElem?_map] at h
    obtain ⟨_, -, he⟩ := Option.map_eq_some_iff.1 h
    cases he
  | cons x' xs ih =>
    cases ys with
    | nil =>
      rw [align_nil_right, List.getElem?_map] at h
      obtain ⟨_, -, he⟩ := Option.map_eq_some_iff.1 h
      cases he
    | cons y' ys =>
      cases i with
      | zero =>
        obtain ⟨rfl, rfl⟩ := Slot.both.inj (Option.some.inj h)
        exact ⟨rfl, rfl⟩
      | succ i => exact ih h

/-- Equal elements never stand beside each other as pieces that may differ. -/
theorem both_notMem_elementSlots {elem : Ty} {new old : List Val}
    (h : ElementSlots elem new old ss) : .both x y ∉ ss := by
  induction h with
  | old | new => simp
  | same _ _ ih | fresh _ _ ih | gone _ _ ih => simpa using ih

/-- Entries in one slot have equal keys. -/
theorem getElem?_entrySlots {key value : Ty} {new old : List (Val × Val)} {i : Nat}
    (h : entrySlots key value new old = .ok ss) (hi : ss[i]? = some (.both x y)) :
    ∃ (p : Val × Val) (j : Nat) (q : Val × Val), new[i]? = some p ∧ old[j]? = some q
      ∧ key.compare p.1 q.1 = .ok .eq ∧ x = entryPiece key value p
      ∧ y = entryPiece key value q := by
  obtain ⟨kept, losses, hkept, hlost, rfl⟩ := entrySlots_eq_ok_iff.1 h
  rcases Nat.lt_or_ge i kept.length with hlt | hge
  · rw [List.getElem?_append_left hlt] at hi
    obtain ⟨p, hp, hslot⟩ := exists_getElem?_of_mapM hkept hi
    obtain ⟨q, hq, he⟩ | ⟨-, he⟩ := keptSlot_eq_ok_iff.1 hslot
    · obtain ⟨rfl, rfl⟩ := Slot.both.inj he
      obtain ⟨hmem, hkey⟩ := Sorted.of_findPair?_eq_some hq
      obtain ⟨j, hj⟩ := List.mem_iff_getElem?.1 hmem
      exact ⟨p, j, q, hp, hj, (isOrder_compare key).swap hkey, rfl, rfl⟩
    · cases he
  · rw [List.getElem?_append_right hge] at hi
    obtain ⟨q, -, he⟩ := exists_of_mem_lost hlost (List.mem_of_getElem? hi)
    cases he

theorem getElem?_itemPieces {elem : Ty} {index i : Nat} {values : List Val}
    (h : (itemPieces elem index values)[i]? = some x) :
    ∃ v, values[i]? = some v ∧ x.part = ⟨elem, v⟩ := by
  induction values generalizing index i with
  | nil => cases h
  | cons v values ih =>
    cases i with
    | zero =>
      obtain rfl := Option.some.inj h
      exact ⟨v, rfl, rfl⟩
    | succ i => exact ih h

end Slot

/-- Two parts of two values of one type, shown as the children with the given numbers, that
stand at the same place: members and items by their numbers, leaves by their paths, and the
values of entries by keys that are equal. -/
inductive Beside : Typed → Typed → Nat → Nat → Typed → Typed → Prop
  | member {i l r v w k x y} (hx : (Typed.members (.pair i l r) v)[k]? = some x)
      (hy : (Typed.members (.pair i l r) w)[k]? = some y) :
      Beside ⟨.pair i l r, v⟩ ⟨.pair i l r, w⟩ k k x y
  | leaf {i l r v w path x y} (hx : Typed.activeLeaf? (.or i l r) v = some (path, x))
      (hy : Typed.activeLeaf? (.or i l r) w = some (path, y)) :
      Beside ⟨.or i l r, v⟩ ⟨.or i l r, w⟩ 0 0 x y
  | payload {i t a b} : Beside ⟨.option i t, .some a⟩ ⟨.option i t, .some b⟩ 0 0 ⟨t, a⟩ ⟨t, b⟩
  | item {i elem new old k a b} (ha : new[k]? = some a) (hb : old[k]? = some b) :
      Beside ⟨.list i elem, .items new⟩ ⟨.list i elem, .items old⟩ k k ⟨elem, a⟩ ⟨elem, b⟩
  | entry {i key value m n new old j k p q} (hp : new[j]? = some p) (hq : old[k]? = some q)
      (hkey : key.compare p.1 q.1 = .ok .eq) :
      Beside ⟨.map i key value, .entries m new⟩ ⟨.map i key value, .entries n old⟩ j k
        ⟨value, p.2⟩ ⟨value, q.2⟩
  | bigEntry {i key value m n new old j k p q} (hp : new[j]? = some p) (hq : old[k]? = some q)
      (hkey : key.compare p.1 q.1 = .ok .eq) :
      Beside ⟨.bigMap i key value, .entries m new⟩ ⟨.bigMap i key value, .entries n old⟩ j k
        ⟨value, p.2⟩ ⟨value, q.2⟩
  | ticket {i content paired v w j k x y} (h : Beside ⟨paired, v⟩ ⟨paired, w⟩ j k x y) :
      Beside ⟨.ticket i content paired, v⟩ ⟨.ticket i content paired, w⟩ j k x y

/-- Parts at the same place at any depth, with the paths to where they are shown. -/
inductive SamePlace : Typed → Typed → List Nat → List Nat → Typed → Typed → Prop
  | here {t u} : SamePlace t u [] [] t u
  | inside {t u x y x' y' j k path path'} (h : Beside t u j k x y)
      (hrest : SamePlace x y path path' x' y') : SamePlace t u (j :: path) (k :: path') x' y'

/-- Paths in a presentation beside an earlier value and in that of the earlier value that lead
to corresponding places: to the same place in the two values, or to one place in a part that
is gone and stood there. -/
inductive Corresponds (m p : Presentation) (t u : Typed) : List Nat → List Nat → Prop
  | same {path path' x y} (h : SamePlace t u path path' x y) : Corresponds m p t u path path'
  | gone {path path' tail x y j k c} (h : SamePlace t u path path' x y)
      (hm : m.at? (path ++ [j]) = some c) (hc : c.change = some .delete)
      (hp : p.at? (path' ++ [k]) = some c.unmarked) :
      Corresponds m p t u (path ++ j :: tail) (path' ++ k :: tail)

/-- Only the whole corresponds to the whole. -/
theorem Corresponds.eq_nil {m p : Presentation} {t u : Typed} {path' : List Nat}
    (h : Corresponds m p t u [] path') : path' = [] := by
  generalize hpath : ([] : List Nat) = path at h
  cases h with
  | same h =>
    subst hpath
    cases h
    rfl
  | gone => simp at hpath

/-- **A piece beside an earlier one stands at the place of that.** -/
theorem exists_beside {loaded : Bool} {ty : Ty} {v w : Val} {ss : List Slot} {n : Nat}
    {x y : Piece} (hv : ty.Holds loaded v) (hw : ty.Holds loaded w) (h : ty.slots v w = .ok ss)
    (hn : ss[n]? = some (.both x y)) :
    ∃ j, (ty.pieces w)[j]? = some y ∧ Beside ⟨ty, v⟩ ⟨ty, w⟩ n j x.part y.part := by
  induction ty generalizing v w with
  | pair i l r =>
    obtain rfl := Except.ok.inj h
    obtain ⟨hx, hy⟩ := Slot.getElem?_align hn
    have hold := hy
    rw [pieces, List.getElem?_map] at hx hy
    obtain ⟨x', hx', rfl⟩ := Option.map_eq_some_iff.1 hx
    obtain ⟨y', hy', rfl⟩ := Option.map_eq_some_iff.1 hy
    exact ⟨_, hold, .member hx' hy'⟩
  | or i l r =>
    obtain ⟨path, x', path', y', hx, hy, ⟨rfl, rfl⟩ | ⟨-, rfl⟩⟩ := slots_or_cases hv hw h
    · cases n with
      | zero =>
        obtain ⟨rfl, rfl⟩ := Slot.both.inj (Option.some.inj hn)
        refine ⟨0, ?_, .leaf hx hy⟩
        rw [pieces, hy]
        rfl
      | succ n => cases hn
    · -- one leaf came and the other one went
      simpa using List.mem_of_getElem? hn
  | option i t =>
    obtain rfl := Except.ok.inj h
    obtain ⟨hx, hy⟩ := Slot.getElem?_align hn
    have hold := hy
    obtain ⟨rfl, a, rfl, rfl⟩ := of_getElem?_optionPieces hx
    obtain ⟨-, b, rfl, rfl⟩ := of_getElem?_optionPieces hy
    exact ⟨0, hold, .payload⟩
  | list i elem =>
    cases hv with
    | list _ =>
      cases hw with
      | list _ =>
        obtain rfl := Except.ok.inj h
        obtain ⟨hx, hy⟩ := Slot.getElem?_align hn
        obtain ⟨a, ha, hxa⟩ := Slot.getElem?_itemPieces hx
        obtain ⟨b, hb, hyb⟩ := Slot.getElem?_itemPieces hy
        rw [hxa, hyb]
        exact ⟨_, hy, .item ha hb⟩
  | set i elem =>
    cases hv with
    | set _ _ =>
      cases hw with
      | set _ _ =>
        have hmem : .both x y ∈ ss := List.mem_of_getElem? hn
        exact absurd hmem (Slot.both_notMem_elementSlots (.of_eq_ok h))
  | map i key value =>
    cases hv with
    | map _ _ _ =>
      cases hw with
      | map _ _ _ =>
        obtain ⟨p, j, q, hp, hq, hkey, rfl, rfl⟩ := Slot.getElem?_entrySlots h hn
        refine ⟨j, ?_, .entry hp hq hkey⟩
        rw [pieces, List.getElem?_map, hq]
        rfl
  | bigMap i key value =>
    obtain ⟨pointer, new, rfl⟩ := exists_entries_of_holds hv
    obtain ⟨oldPointer, old, rfl⟩ := exists_entries_of_holds hw
    obtain ⟨p, j, q, hp, hq, hkey, rfl, rfl⟩ := Slot.getElem?_entrySlots h hn
    refine ⟨j, ?_, .bigEntry hp hq hkey⟩
    rw [pieces, List.getElem?_map, hq]
    rfl
  | ticket i content paired _ ih =>
    cases hv with
    | ticket hv =>
      cases hw with
      | ticket hw =>
        obtain ⟨j, hj, hbeside⟩ := ih hv hw h
        exact ⟨j, hj, .ticket hbeside⟩
  | _ =>
    rw [slots_of_isLeaf rfl] at h
    obtain rfl := Except.ok.inj h
    cases hn

end Micheline
