/-
Micheline/Proofs/Value/Marks.lean

Marks in presentations.  Taking out what is marked as deleted and clearing all other marks
gives the presentation of what is there now (`Presentation.current`); clearing the marks and
keeping everything gives what the parts look like (`Presentation.unmarked`).  A presentation
that has no marks is left as it is by both.

Places in a presentation are paths of indices; `Presentation.keptAt?` goes down through
children that are not marked as deleted.
-/
import Mathlib.Data.List.Basic
import Micheline.Value.Presentation

namespace Micheline.Presentation

/-! ### Clearing marks -/

mutual

/-- A node without marks. -/
def unmarked : Presentation → Presentation
  | ⟨prim, kind, name, _, _, value, children⟩ =>
    ⟨prim, kind, name, none, none, value, unmarkedAll children⟩

/-- The nodes of a list without marks. -/
def unmarkedAll : List Presentation → List Presentation
  | [] => []
  | p :: ps => unmarked p :: unmarkedAll ps

end

mutual

/-- A node without marks and without the children, at any depth, that are marked as deleted. -/
def current : Presentation → Presentation
  | ⟨prim, kind, name, _, _, value, children⟩ =>
    ⟨prim, kind, name, none, none, value, currentAll children⟩

/-- The nodes of a list that are not marked as deleted, without marks. -/
def currentAll : List Presentation → List Presentation
  | [] => []
  | p :: ps => if p.change = some .delete then currentAll ps else current p :: currentAll ps

end

/-- A node with no marks on it or below it. -/
def IsPlain (p : Presentation) : Prop :=
  p.unmarked = p

variable {p q : Presentation} {ps : List Presentation} {c : Change} {name : String}

theorem unmarkedAll_eq_map : unmarkedAll ps = ps.map unmarked := by
  induction ps with
  | nil => rfl
  | cons p ps ih => rw [unmarkedAll, ih, List.map_cons]

theorem markAll_eq_map : markAll c ps = ps.map (mark c) := by
  induction ps with
  | nil => rfl
  | cons p ps ih => rw [markAll, ih, List.map_cons]

theorem children_unmarked (p : Presentation) : p.unmarked.children = p.children.map unmarked := by
  obtain ⟨prim, kind, name, before, change, value, children⟩ := p
  rw [unmarked, unmarkedAll_eq_map]

theorem children_mark (p : Presentation) : (p.mark c).children = p.children.map (mark c) := by
  obtain ⟨prim, kind, name, before, change, value, children⟩ := p
  rw [mark, markAll_eq_map]

theorem change_mark (p : Presentation) : (p.mark c).change = some c := by
  obtain ⟨prim, kind, name, before, change, value, children⟩ := p
  rw [mark]

@[simp] theorem unmarked_named : (p.named name).unmarked = p.unmarked.named name := by
  obtain ⟨prim, kind, label, before, change, value, children⟩ := p
  simp only [named, unmarked]

@[simp] theorem current_named : (p.named name).current = p.current.named name := by
  obtain ⟨prim, kind, label, before, change, value, children⟩ := p
  simp only [named, current]

@[simp] theorem mark_named : (p.named name).mark c = (p.mark c).named name := by
  obtain ⟨prim, kind, label, before, change, value, children⟩ := p
  simp only [named, mark]

mutual

/-- Marking is undone by taking marks away. -/
theorem unmarked_mark : ∀ p : Presentation, (p.mark c).unmarked = p.unmarked
  | ⟨prim, kind, name, before, change, value, children⟩ => by
    rw [mark, unmarked, unmarked, unmarkedAll_markAll children]

theorem unmarkedAll_markAll : ∀ ps : List Presentation,
    unmarkedAll (markAll c ps) = unmarkedAll ps
  | [] => rfl
  | p :: ps => by
    rw [markAll, unmarkedAll, unmarkedAll, unmarked_mark p, unmarkedAll_markAll ps]

end

/-! ### Nodes without marks -/

theorem unmarkedAll_eq_self_iff : unmarkedAll ps = ps ↔ ∀ p ∈ ps, p.IsPlain := by
  induction ps with
  | nil => simp [unmarkedAll]
  | cons p ps ih => rw [unmarkedAll, List.cons.injEq, ih, List.forall_mem_cons, IsPlain]

/-- What is plain has no mark on it and only plain children. -/
theorem isPlain_iff : p.IsPlain
    ↔ p.change = none ∧ p.before = none ∧ ∀ child ∈ p.children, child.IsPlain := by
  obtain ⟨prim, kind, name, before, change, value, children⟩ := p
  rw [IsPlain, unmarked]
  simp only [Presentation.mk.injEq, true_and, unmarkedAll_eq_self_iff]
  constructor
  · rintro ⟨hbefore, hchange, hchildren⟩
    exact ⟨hchange.symm, hbefore.symm, hchildren⟩
  · rintro ⟨rfl, rfl, hchildren⟩
    exact ⟨rfl, rfl, hchildren⟩

theorem IsPlain.change (h : p.IsPlain) : p.change = none :=
  (isPlain_iff.1 h).1

theorem IsPlain.of_mem (h : p.IsPlain) (hq : q ∈ p.children) : q.IsPlain :=
  (isPlain_iff.1 h).2.2 q hq

theorem IsPlain.named (h : p.IsPlain) : (p.named name).IsPlain := by
  rw [IsPlain, unmarked_named, h]

mutual

/-- Of a presentation without marks all is there now. -/
theorem current_of_isPlain : ∀ p : Presentation, p.IsPlain → p.current = p
  | ⟨prim, kind, name, before, change, value, children⟩, h => by
    obtain ⟨rfl, rfl, hchildren⟩ := isPlain_iff.1 h
    rw [current, currentAll_of_isPlain children hchildren]

theorem currentAll_of_isPlain : ∀ ps : List Presentation, (∀ p ∈ ps, p.IsPlain) →
    currentAll ps = ps
  | [], _ => rfl
  | p :: ps, h => by
    obtain ⟨hp, hps⟩ := List.forall_mem_cons.1 h
    have hkept : p.change ≠ some .delete := by
      rw [hp.change]
      exact nofun
    rw [currentAll, if_neg hkept, current_of_isPlain p hp, currentAll_of_isPlain ps hps]

end

mutual

/-- What was marked as created is there now. -/
theorem current_mark : ∀ p : Presentation, c ≠ .delete → (p.mark c).current = p.unmarked
  | ⟨prim, kind, name, before, change, value, children⟩, hc => by
    rw [mark, current, unmarked, currentAll_markAll children hc]

/-- What is marked all over, and not as deleted, is there without its marks. -/
theorem currentAll_markAll : ∀ ps : List Presentation, c ≠ .delete →
    currentAll (markAll c ps) = unmarkedAll ps
  | [], _ => rfl
  | p :: ps, hc => by
    have hkept : (p.mark c).change ≠ some .delete := by
      rw [change_mark]
      exact fun he => hc (Option.some.inj he)
    rw [markAll, currentAll, if_neg hkept, current_mark p hc, currentAll_markAll ps hc,
      unmarkedAll]

end

/-! ### Whether anything is marked -/

@[simp] theorem hasChanges_named : (p.named name).hasChanges = p.hasChanges := by
  obtain ⟨prim, kind, label, before, change, value, children⟩ := p
  simp only [named, hasChanges]

theorem anyChanges_eq_any : anyChanges ps = ps.any hasChanges := by
  induction ps with
  | nil => rfl
  | cons p ps ih => rw [anyChanges, ih, List.any_cons]

/-- Nothing changed exactly if there is no mark here and none on the children. -/
theorem hasChanges_eq_false_iff : p.hasChanges = false
    ↔ p.change = none ∧ ∀ child ∈ p.children, child.hasChanges = false := by
  obtain ⟨prim, kind, name, before, change, value, children⟩ := p
  rw [hasChanges, anyChanges_eq_any, Bool.or_eq_false_iff, List.any_eq_false]
  simp

theorem hasChanges_mark (p : Presentation) : (p.mark c).hasChanges = true := by
  by_contra h
  have hchange := (hasChanges_eq_false_iff.1 (Bool.eq_false_iff.2 h)).1
  rw [change_mark] at hchange
  cases hchange

mutual

theorem hasChanges_of_isPlain : ∀ p : Presentation, p.IsPlain → p.hasChanges = false
  | ⟨prim, kind, name, before, change, value, children⟩, h => by
    obtain ⟨rfl, rfl, hchildren⟩ := isPlain_iff.1 h
    rw [hasChanges, anyChanges_of_isPlain children hchildren]
    rfl

theorem anyChanges_of_isPlain : ∀ ps : List Presentation, (∀ p ∈ ps, p.IsPlain) →
    anyChanges ps = false
  | [], _ => rfl
  | p :: ps, h => by
    obtain ⟨hp, hps⟩ := List.forall_mem_cons.1 h
    rw [anyChanges, hasChanges_of_isPlain p hp, anyChanges_of_isPlain ps hps]
    rfl

end

/-! ### Places -/

/-- The node at a place. -/
def at? : List Nat → Presentation → Option Presentation
  | [], p => some p
  | i :: path, p => p.children[i]?.bind (at? path)

/-- The node at a place that is reached through children that are not marked as deleted. -/
def keptAt? : List Nat → Presentation → Option Presentation
  | [], p => some p
  | i :: path, p => p.children[i]?.bind fun child =>
    if child.change = some .delete then none else keptAt? path child

theorem at?_cons_eq_some_iff {i : Nat} {path : List Nat} :
    p.at? (i :: path) = some q
      ↔ ∃ child, p.children[i]? = some child ∧ child.at? path = some q := by
  rw [at?, Option.bind_eq_some_iff]

theorem keptAt?_cons_eq_some_iff {i : Nat} {path : List Nat} :
    p.keptAt? (i :: path) = some q
      ↔ ∃ child, p.children[i]? = some child ∧ child.change ≠ some .delete
        ∧ child.keptAt? path = some q := by
  rw [keptAt?, Option.bind_eq_some_iff]
  refine exists_congr fun child => and_congr_right fun _ => ?_
  by_cases h : child.change = some .delete <;> simp [h]

/-- A path is followed piece by piece. -/
theorem at?_append {path rest : List Nat} :
    p.at? (path ++ rest) = (p.at? path).bind (at? rest) := by
  induction path generalizing p with
  | nil => rfl
  | cons i path ih =>
    rw [List.cons_append, at?, at?, Option.bind_assoc]
    exact congrArg _ (funext fun child => ih)

mutual

/-- A change has a place. -/
theorem exists_at?_of_hasChanges : ∀ p : Presentation, p.hasChanges = true →
    ∃ path q, p.at? path = some q ∧ q.change.isSome = true
  | ⟨prim, kind, name, before, change, value, children⟩, h => by
    rw [hasChanges, Bool.or_eq_true_iff] at h
    rcases h with h | h
    · exact ⟨[], _, rfl, h⟩
    · obtain ⟨i, child, path, q, hchild, hq, hchange⟩ := exists_at?_of_anyChanges children h
      exact ⟨i :: path, q, at?_cons_eq_some_iff.2 ⟨child, hchild, hq⟩, hchange⟩

/-- If anything changed there is a path to a mark. -/
theorem exists_at?_of_anyChanges : ∀ ps : List Presentation, anyChanges ps = true →
    ∃ (i : Nat) (child : Presentation) (path : List Nat) (q : Presentation),
      ps[i]? = some child ∧ child.at? path = some q ∧ q.change.isSome = true
  | p :: ps, h => by
    rw [anyChanges, Bool.or_eq_true_iff] at h
    rcases h with h | h
    · obtain ⟨path, q, hq, hchange⟩ := exists_at?_of_hasChanges p h
      exact ⟨0, p, path, q, rfl, hq, hchange⟩
    · obtain ⟨i, child, path, q, hchild, hq, hchange⟩ := exists_at?_of_anyChanges ps h
      exact ⟨i + 1, child, path, q, hchild, hq, hchange⟩

end

/-- Clearing marks leaves everything in its place. -/
theorem at?_unmarked {path : List Nat} (h : p.at? path = some q) :
    p.unmarked.at? path = some q.unmarked := by
  induction path generalizing p with
  | nil =>
    obtain rfl := Option.some.inj h
    rfl
  | cons i path ih =>
    obtain ⟨child, hchild, h⟩ := at?_cons_eq_some_iff.1 h
    refine at?_cons_eq_some_iff.2 ⟨child.unmarked, ?_, ih h⟩
    rw [children_unmarked, List.getElem?_map, hchild]
    rfl

/-- A place is reached through what is there now, or through something that is gone. -/
theorem keptAt?_or_exists_gone {path : List Nat} (h : p.at? path = some q) :
    p.keptAt? path = some q ∨ ∃ (kept : List Nat) (j : Nat) (tail : List Nat)
      (r gone : Presentation), path = kept ++ j :: tail ∧ p.keptAt? kept = some r
        ∧ r.children[j]? = some gone ∧ gone.change = some .delete ∧ gone.at? tail = some q := by
  induction path generalizing p with
  | nil => exact .inl h
  | cons i path ih =>
    obtain ⟨child, hchild, h⟩ := at?_cons_eq_some_iff.1 h
    by_cases hdelete : child.change = some .delete
    · exact .inr ⟨[], i, path, p, child, rfl, rfl, hchild, hdelete, h⟩
    · rcases ih h with hkept | ⟨kept, j, tail, r, gone, rfl, hr, hgone, hchange, hq⟩
      · exact .inl (keptAt?_cons_eq_some_iff.2 ⟨child, hchild, hdelete, hkept⟩)
      · refine .inr ⟨i :: kept, j, tail, r, gone, rfl, ?_, hgone, hchange, hq⟩
        exact keptAt?_cons_eq_some_iff.2 ⟨child, hchild, hdelete, hr⟩

theorem at?_of_keptAt? {path : List Nat} (h : p.keptAt? path = some q) : p.at? path = some q := by
  induction path generalizing p with
  | nil => exact h
  | cons i path ih =>
    obtain ⟨child, hchild, -, h⟩ := keptAt?_cons_eq_some_iff.1 h
    exact at?_cons_eq_some_iff.2 ⟨child, hchild, ih h⟩

/-- Where two nodes have the same children, the same is below them. -/
theorem exists_keptAt?_of_children {path : List Nat} {r : Presentation}
    (h : p.children = q.children) (hr : p.keptAt? path = some r) :
    ∃ r', q.keptAt? path = some r' ∧ r'.children = r.children := by
  cases path with
  | nil =>
    obtain rfl := Option.some.inj hr
    exact ⟨q, rfl, h.symm⟩
  | cons i path =>
    rw [keptAt?, h] at hr
    exact ⟨r, hr, rfl⟩

/-- Below the root a path only sees the children. -/
theorem exists_at?_of_children {path : List Nat} {r : Presentation}
    (h : p.children = q.children) (hr : p.at? path = some r) :
    ∃ r', q.at? path = some r' ∧ r'.children = r.children := by
  cases path with
  | nil =>
    obtain rfl := Option.some.inj hr
    exact ⟨q, rfl, h.symm⟩
  | cons i path =>
    rw [at?, h] at hr
    exact ⟨r, hr, rfl⟩

/-- Below a marked node everything is marked. -/
theorem change_of_keptAt?_mark {path : List Nat} {child : Presentation}
    (hq : (p.mark c).keptAt? path = some q) (hchild : child ∈ q.children) :
    child.change = some c := by
  induction path generalizing p with
  | nil =>
    obtain rfl := Option.some.inj hq
    rw [children_mark] at hchild
    obtain ⟨child, -, rfl⟩ := List.mem_map.1 hchild
    exact change_mark child
  | cons i path ih =>
    obtain ⟨next, hnext, -, hq⟩ := keptAt?_cons_eq_some_iff.1 hq
    rw [children_mark, List.getElem?_map] at hnext
    obtain ⟨next, -, rfl⟩ := Option.map_eq_some_iff.1 hnext
    exact ih hq

/-- Below a node without marks nothing is marked. -/
theorem IsPlain.change_of_keptAt? {path : List Nat} {child : Presentation} (h : p.IsPlain)
    (hq : p.keptAt? path = some q) (hchild : child ∈ q.children) : child.change = none := by
  induction path generalizing p with
  | nil =>
    obtain rfl := Option.some.inj hq
    exact (h.of_mem hchild).change
  | cons i path ih =>
    obtain ⟨next, hnext, -, hq⟩ := keptAt?_cons_eq_some_iff.1 hq
    exact ih (h.of_mem (List.mem_of_getElem? hnext)) hq

end Micheline.Presentation
