/-
Micheline/Proofs/Value/Slots.lean

What a presentation beside an earlier value is made of.  Its children are slots
(`Ty.slots`): a piece that is there now and was there before, a piece that came, or a piece
that went; elements of sets that are equal to earlier ones make slots of their own.  What is
marked on the node itself is said by `Ty.shellDiff`.

The slots of sets come about element by element (`Ty.ElementSlots`).
-/
import Micheline.Proofs.Value.Entry
import Micheline.Proofs.Value.Pieces
import Micheline.Value.Difference

namespace Micheline

/-! ### Slots -/

/-- What stands in one place of a presentation beside an earlier value. -/
inductive Slot where
  /-- A piece that was there before, maybe with another value. -/
  | both (new old : Piece)
  /-- An element that is equal to an earlier one. -/
  | same (new old : Piece)
  | fresh (new : Piece)
  | gone (old : Piece)

namespace Slot

/-- The child that stands in the place. -/
def child : Slot → Except Error Presentation
  | .both x y => do x.label.apply (← x.part.diff y.part)
  | .same x _ => x.present
  | .fresh x => do x.label.apply (← x.part.ty.created x.part.val)
  | .gone y => do y.label.apply (← y.part.ty.deleted y.part.val)

/-- The piece that is there now. -/
def new? : Slot → Option Piece
  | .both x _ => some x
  | .same x _ => some x
  | .fresh x => some x
  | .gone _ => none

/-- The piece that was there before. -/
def old? : Slot → Option Piece
  | .both _ y => some y
  | .same _ y => some y
  | .fresh _ => none
  | .gone y => some y

/-- Pieces side by side, those that are left over at the end. -/
def align : List Piece → List Piece → List Slot
  | [], ys => ys.map .gone
  | xs, [] => xs.map .fresh
  | x :: xs, y :: ys => .both x y :: align xs ys

theorem align_nil_right (xs : List Piece) : align xs [] = xs.map .fresh := by
  cases xs <;> rfl

end Slot

namespace Ty

open Slot

/-- The slots of a set beside an earlier one. -/
def elementSlots (elem : Ty) : List Val → List Val → Except Error (List Slot)
  | [], old => .ok (old.map fun b => .gone (elementPiece elem b))
  | new, [] => .ok (new.map fun a => .fresh (elementPiece elem a))
  | a :: new, b :: old => do
    match ← elem.compare a b with
    | .eq =>
      return .same (elementPiece elem a) (elementPiece elem b) :: (← elementSlots elem new old)
    | .lt => return .fresh (elementPiece elem a) :: (← elementSlots elem new (b :: old))
    | .gt => return .gone (elementPiece elem b) :: (← elementSlots elem (a :: new) old)
termination_by new old => new.length + old.length

/-- How the slots of two sets come about, element by element. -/
inductive ElementSlots (elem : Ty) : (new old : List Val) → List Slot → Prop
  | old (old : List Val) :
    ElementSlots elem [] old (old.map fun b => .gone (elementPiece elem b))
  | new (new : List Val) :
    ElementSlots elem new [] (new.map fun a => .fresh (elementPiece elem a))
  | same {a b new old ss} (hab : elem.compare a b = .ok .eq)
    (hrest : ElementSlots elem new old ss) : ElementSlots elem (a :: new) (b :: old)
      (.same (elementPiece elem a) (elementPiece elem b) :: ss)
  | fresh {a b new old ss} (hab : elem.compare a b = .ok .lt)
    (hrest : ElementSlots elem new (b :: old) ss) :
    ElementSlots elem (a :: new) (b :: old) (.fresh (elementPiece elem a) :: ss)
  | gone {a b new old ss} (hab : elem.compare a b = .ok .gt)
    (hrest : ElementSlots elem (a :: new) old ss) :
    ElementSlots elem (a :: new) (b :: old) (.gone (elementPiece elem b) :: ss)

/-- The slots of sets come about as the relation says. -/
theorem ElementSlots.of_eq_ok {elem : Ty} {new old : List Val} {ss : List Slot}
    (h : elementSlots elem new old = .ok ss) : ElementSlots elem new old ss := by
  induction new, old using elementSlots.induct generalizing ss with
  | case1 old =>
    rw [elementSlots] at h
    obtain rfl := Except.ok.inj h
    exact .old old
  | case2 new hnew =>
    rw [elementSlots.eq_2 _ _ hnew] at h
    obtain rfl := Except.ok.inj h
    exact .new new
  | case3 a new b old iheq ihlt ihgt =>
    rw [elementSlots, bind_eq_ok_iff] at h
    obtain ⟨o, hab, h⟩ := h
    cases o with
    | eq =>
      obtain ⟨rest, hrest, h⟩ := bind_eq_ok_iff.1 h
      obtain rfl := pure_eq_ok_iff.1 h
      exact .same hab (iheq hrest)
    | lt =>
      obtain ⟨rest, hrest, h⟩ := bind_eq_ok_iff.1 h
      obtain rfl := pure_eq_ok_iff.1 h
      exact .fresh hab (ihlt hrest)
    | gt =>
      obtain ⟨rest, hrest, h⟩ := bind_eq_ok_iff.1 h
      obtain rfl := pure_eq_ok_iff.1 h
      exact .gone hab (ihgt hrest)

/-- The slot of an entry that is there now. -/
def keptSlot (key value : Ty) (old : List (Val × Val)) (p : Val × Val) : Except Error Slot := do
  match ← Sorted.findPair? key.compare p.1 old with
  | some q => return .both (entryPiece key value p) (entryPiece key value q)
  | none => return .fresh (entryPiece key value p)

/-- The slot of an earlier entry, unless it is there now. -/
def lostSlot (key value : Ty) (new : List (Val × Val)) (q : Val × Val) :
    Except Error (Option Slot) := do
  match ← Sorted.findPair? key.compare q.1 new with
  | some _ => return none
  | none => return some (.gone (entryPiece key value q))

/-- The slots of a map beside an earlier one. -/
def entrySlots (key value : Ty) (new old : List (Val × Val)) : Except Error (List Slot) := do
  let kept ← new.mapM (keptSlot key value old)
  let lost ← old.mapM (lostSlot key value new)
  return kept ++ lost.filterMap id

/-- The slots of a value beside an earlier one of the same type. -/
def slots : Ty → Val → Val → Except Error (List Slot)
  | .or i l r, v, w =>
    match Typed.activeLeaf? (.or i l r) v, Typed.activeLeaf? (.or i l r) w with
    | some (path, x), some (path', y) =>
      if path = path' then .ok [.both ⟨x, .own⟩ ⟨y, .own⟩]
      else .ok [.fresh ⟨x, .own⟩, .gone ⟨y, .own⟩]
    | _, _ => .error .notSettled
  | .set _ elem, .items new, .items old => elementSlots elem new old
  | .map _ key value, .entries _ new, .entries _ old => entrySlots key value new old
  | .bigMap _ key value, .entries _ new, .entries _ old => entrySlots key value new old
  | .ticket _ _ paired, v, w => slots paired v w
  | ty, v, w => .ok (align (ty.pieces v) (ty.pieces w))

/-- Whether values of the type have no pieces. -/
def isLeaf : Ty → Bool
  | .pair _ _ _ => false
  | .or _ _ _ => false
  | .option _ _ => false
  | .list _ _ => false
  | .set _ _ => false
  | .map _ _ _ => false
  | .bigMap _ _ _ => false
  | .ticket _ _ _ => false
  | _ => true

/-- Marks the node of a big map that has another pointer than before, if it shows its own. -/
def markPointer (pointer oldPointer : Option Int) (p : Presentation) : Presentation :=
  if pointer ≠ oldPointer ∧ p.value.isSome then
    { p with
      change := some .update
      before := oldPointer.map fun id => .str (Decimal.ofInt id) }
  else p

theorem markPointer_clear {pointer oldPointer : Option Int} {p : Presentation} :
    { markPointer pointer oldPointer p with before := none, change := none }
      = { p with before := none, change := none } := by
  rw [markPointer]
  split <;> rfl

/-- The mark on a pointer is not that of a deletion. -/
theorem change_markPointer {pointer oldPointer : Option Int} {p : Presentation}
    (h : p.change ≠ some .delete) : (markPointer pointer oldPointer p).change ≠ some .delete := by
  rw [markPointer]
  split
  · nofun
  · exact h

/-- The node of a value beside an earlier one of the same type, without children. -/
def shellDiff : Ty → Val → Val → Except Error Presentation
  | .bigMap i key value, .entries pointer new, .entries oldPointer _ => do
    let shown ← present (.bigMap i key value) (.entries pointer new)
    return markPointer pointer oldPointer { shown with children := [] }
  | .ticket i content paired, v, w => do
    let _ ← shellDiff paired v w
    return Presentation.ofTy (.ticket i content paired) "ticket"
  | ty, v, w =>
    if ty.isLeaf then do
      let shown ← ty.present v
      let after ← ty.shown v
      let before ← ty.shown w
      if after = before then return shown
      else return { shown with change := some .update, before := before.map Shown.toJson }
    else ty.shell v

variable {loaded : Bool} {ty : Ty} {v w : Val}

/-! ### Values without pieces, and choices -/

theorem pieces_of_isLeaf (hty : ty.isLeaf = true) : ty.pieces v = [] := by
  cases ty with
  | unit | never | operation | bool | scalar | contract | lambda | saplingState
    | saplingTransaction | constant => cases v <;> rfl
  | _ => cases hty

/-- A value without parts has no slots. -/
theorem slots_of_isLeaf (hty : ty.isLeaf = true) : ty.slots v w = .ok [] := by
  have hslots : ty.slots v w = .ok (align (ty.pieces v) (ty.pieces w)) := by
    cases ty with
    | unit | never | operation | bool | scalar | contract | lambda | saplingState
      | saplingTransaction | constant => rfl
    | _ => cases hty
  rw [hslots, pieces_of_isLeaf hty, pieces_of_isLeaf hty]
  rfl

/-- The slots of a choice beside an earlier one: one for a leaf on the same path, else one for
each of the two leaves. -/
theorem slots_or_cases {i : Info} {l r : Ty} {ss : List Slot} (hv : (or i l r).Holds loaded v)
    (hw : (or i l r).Holds loaded w) (h : (or i l r).slots v w = .ok ss) :
    ∃ path x path' y, Typed.activeLeaf? (or i l r) v = some (path, x)
      ∧ Typed.activeLeaf? (or i l r) w = some (path', y)
      ∧ (path = path' ∧ ss = [.both ⟨x, .own⟩ ⟨y, .own⟩]
        ∨ path ≠ path' ∧ ss = [.fresh ⟨x, .own⟩, .gone ⟨y, .own⟩]) := by
  obtain ⟨path, x, hx⟩ := exists_activeLeaf? hv
  obtain ⟨path', y, hy⟩ := exists_activeLeaf? hw
  refine ⟨path, x, path', y, hx, hy, ?_⟩
  rw [slots, hx, hy] at h
  dsimp only at h
  split at h
  next hpath => exact .inl ⟨hpath, (Except.ok.inj h).symm⟩
  next hpath => exact .inr ⟨hpath, (Except.ok.inj h).symm⟩

end Ty

end Micheline
