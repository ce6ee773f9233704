/-
Micheline/Value/Difference.lean

Presentations that mark what changed since an earlier value.  Members of pairs and items of
lists are compared by their places, elements of sets and entries of maps by their order; a
choice that takes another leaf has the new leaf as created and the old one as deleted.
-/
import Micheline.Value.Presentation
import Micheline.Value.Sorted

namespace Micheline

namespace Ty

/-- The presentation of a value that was not there before. -/
def created (ty : Ty) (v : Val) : Except Error Presentation := do
  return (← ty.present v).mark .create

/-- The presentation of a value that is there no more. -/
def deleted (ty : Ty) (v : Val) : Except Error Presentation := do
  return (← ty.present v).mark .delete

/-! ### Collections -/

/-- Merges two ascending lists: the elements of both, those of the first and those of the
second are each presented in their own way. -/
def mergeSorted {α β : Type} (cmp : α → β → Except Error Ordering)
    (both fresh : α → Except Error Presentation) (gone : β → Except Error Presentation) :
    List α → List β → Except Error (List Presentation)
  | [], old => old.mapM gone
  | new, [] => new.mapM fresh
  | a :: new, b :: old => do
    match ← cmp a b with
    | .eq => return (← both a) :: (← mergeSorted cmp both fresh gone new old)
    -- The lesser of the two heads is on one side only.
    | .lt => return (← fresh a) :: (← mergeSorted cmp both fresh gone new (b :: old))
    | .gt => return (← gone b) :: (← mergeSorted cmp both fresh gone (a :: new) old)
termination_by new old => new.length + old.length

/-- The children of a list beside those of an earlier one, by their places. -/
def diffItems (fresh : Val → Except Error Presentation)
    (changed : Val → Val → Except Error Presentation) (gone : Val → Except Error Presentation) :
    (index : Nat) → List Val → List Val → Except Error (List Presentation)
  | _, [], [] => .ok []
  | index, a :: new, b :: old => do
    let child ← changed a b
    return child.named (Decimal.ofNat index) :: (← diffItems fresh changed gone (index + 1) new old)
  | index, a :: new, [] => do
    let child ← fresh a
    return child.named (Decimal.ofNat index) :: (← diffItems fresh changed gone (index + 1) new [])
  | index, [], b :: old => do
    let child ← gone b
    return child.named (Decimal.ofNat index) :: (← diffItems fresh changed gone (index + 1) [] old)

/-- The child of an element of a set that was made of another presentation of it. -/
def namedByKey (key : Ty) (make : Ty → Val → Except Error Presentation) (v : Val) :
    Except Error Presentation := do
  let child ← make key v
  return child.named (← key.keyName v)

/-- The children of a set beside those of an earlier one. -/
def diffElements (elem oldElem : Ty) (new old : List Val) : Except Error (List Presentation) :=
  mergeSorted (fun a b => compareValues elem a oldElem b) (elem.namedByKey present)
    (elem.namedByKey created) (oldElem.namedByKey deleted) new old

/-- The children of a map beside those of an earlier one: its own entries first, then the
entries that it has no more. -/
def diffEntries (key oldKey : Ty) (fresh : Val → Except Error Presentation)
    (changed : Val → Val → Except Error Presentation) (gone : Val → Except Error Presentation)
    (new old : List (Val × Val)) : Except Error (List Presentation) := do
  let kept ← new.mapM fun (k, v) => do
    let child ← match ← Sorted.find? (fun known k => compareValues oldKey known key k) k old with
      | some before => changed v before
      | none => fresh v
    return child.named (← key.keyName k)
  -- Of the earlier keys those that are still there have been presented above.
  let lost ← old.mapM fun (k, v) => do
    match ← Sorted.find? (fun known k => compareValues key known oldKey k) k new with
    | some _ => return none
    | none =>
      let child ← gone v
      return some (child.named (← oldKey.keyName k))
  return kept ++ lost.filterMap id

/-! ### Differences -/

/-- The presentation of a value beside an earlier one of a type with the same primitive. -/
def diff (ty : Ty) (v : Val) (oldTy : Ty) (old : Val) : Except Error Presentation := do
  if ty.prim ≠ oldTy.prim then throw (.notComparable ty.prim oldTy.prim)
  match ty, oldTy with
  | .pair i l r, .pair i' l' r' =>
    let new := Typed.members (.pair i l r) v
    let before := Typed.members (.pair i' l' r') old
    if new.length ≠ before.length then
      throw (.different (.members new.length before.length))
    let children ← (new.attach.zip before).mapM fun (⟨m, _⟩, b) => diff m.ty m.val b.ty b.val
    return { Presentation.ofTy (.pair i l r) (pairKind new) with children }
  | .or i l r, .or i' l' r' =>
    match _h : Typed.activeLeaf? (.or i l r) v, Typed.activeLeaf? (.or i' l' r') old with
    | some (path, leaf), some (oldPath, oldLeaf) =>
      let children ←
        if path = oldPath then do
          pure [← diff leaf.ty leaf.val oldLeaf.ty oldLeaf.val]
        else do
          let first ← leaf.ty.created leaf.val
          pure [first, ← oldLeaf.ty.deleted oldLeaf.val]
      return { Presentation.ofTy (.or i l r) "or" with children }
    | _, _ => throw .notSettled
  | .option i inner, .option _ oldInner =>
    match v, old with
    | .some a, .some b =>
      return { Presentation.ofTy (.option i inner) "option" with
        children := [← diff inner a oldInner b] }
    -- there was nothing before
    | .some a, _ =>
      return { Presentation.ofTy (.option i inner) "option" with children := [← inner.created a] }
    | v, .some b =>
      let shown ← present (.option i inner) v
      return { shown with children := [← oldInner.deleted b] }
    | v, _ => present (.option i inner) v
  | .list i elem, .list _ oldElem =>
    match v, old with
    | .items new, .items before =>
      return { Presentation.ofTy (.list i elem) "list" with
        children := ← diffItems elem.created (fun a b => diff elem a oldElem b) oldElem.deleted 0
          new before }
    | _, _ => throw .notSettled
  | .set i elem, .set _ oldElem =>
    match v, old with
    | .items new, .items before =>
      return { Presentation.ofTy (.set i elem) "set" with
        children := ← diffElements elem oldElem new before }
    | _, _ => throw .notSettled
  | .map i key value, .map _ oldKey oldValue =>
    match v, old with
    | .entries _ new, .entries _ before =>
      return { Presentation.ofTy (.map i key value) "map" with
        children := ← diffEntries key oldKey value.created (fun a b => diff value a oldValue b)
          oldValue.deleted new before }
    | _, _ => throw .notSettled
  | .bigMap i key value, .bigMap _ oldKey oldValue =>
    match v, old with
    | .entries pointer new, .entries oldPointer before =>
      let shown ← present (.bigMap i key value) (.entries pointer new)
      let children ← diffEntries key oldKey value.created (fun a b => diff value a oldValue b)
        oldValue.deleted new before
      -- only a pointer that is shown is compared
      if pointer ≠ oldPointer ∧ shown.value.isSome then
        return { shown with
          children
          change := some .update
          before := oldPointer.map fun p => .str (Decimal.ofInt p) }
      else return { shown with children }
    | _, _ => throw .notSettled
  | .ticket i content paired, .ticket _ _ oldPaired =>
    return { Presentation.ofTy (.ticket i content paired) "ticket" with
      children := (← diff paired v oldPaired old).children }
  | ty, oldTy =>
    let shown ← ty.present v
    let after ← ty.shown v
    let before ← oldTy.shown old
    if after = before then return shown
    else return { shown with change := some .update, before := before.map Shown.toJson }
termination_by ty.size
decreasing_by
  · exact Typed.size_lt_of_mem_members ‹_›
  · exact Typed.size_lt_of_activeLeaf? _h
  all_goals simp only [size]; omega

end Ty

def Typed.diff (t previous : Typed) : Except Error Presentation :=
  t.ty.diff t.val previous.ty previous.val

end Micheline
