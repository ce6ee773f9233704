/-
Micheline/Proofs/Tree/Arity.lean

Trees that are given expressions with too many arguments somewhere, or too few.  Each root
has one expression after `Tree.arrange`; if at any place below one of them a constructor is
miscounted, nothing is settled and the tree stays as it was.
-/
import Micheline.Proofs.Tree.Reachable
import Micheline.Proofs.Value.Arity

namespace Micheline.Tree

variable {t t' : Tree} {ns ms : List Node} {root place : Ty × Node}

/-- When a tree settles, so do its roots with what was arranged for them. -/
theorem settles_of_settle (h : t.settle ns = .ok t') (harr : arrange t.roots ns = .ok ms)
    (hroot : root ∈ t.roots.zip ms) : Ty.Settles root := by
  rw [settle, bind_eq_ok_iff] at h
  obtain ⟨ms', hms, h⟩ := h
  obtain rfl := Except.ok.inj (harr.symm.trans hms)
  obtain ⟨values, hvalues, -⟩ := bind_eq_ok_iff.1 h
  obtain ⟨v, -, hv⟩ := exists_of_mem_of_mapM hvalues root hroot
  exact ⟨v, hv⟩

/-- **Nothing is cut off or filled in.**  A constructor that is not a boolean with a number of
arguments that its type does not allow, at any place that is read, makes settling fail, and
the tree keeps its values. -/
theorem settle_error_of_miscounts (harr : arrange t.roots ns = .ok ms)
    (hroot : root ∈ t.roots.zip ms) (hplace : Ty.IsPlace place root)
    (hcount : Ty.Miscounts place) (hbool : place.1.isBool = false) :
    ∃ e, t.settle ns = .error e ∧ t.step (.settle ns) = t := by
  rcases hs : t.settle ns with e | t'
  · exact ⟨e, rfl, congrArg Prod.snd (outcome_settling_of_error hs)⟩
  · have hroot' : Ty.Settles root := settles_of_settle hs harr hroot
    exact absurd (hroot'.of_isPlace hplace) (Ty.not_settles_of_miscounts hcount hbool)

/-- A unit with an argument, far down in the items that a list takes. -/
theorem settle_error_of_miscounts_unit :
    let units : Ty := .option ⟨0, 0, []⟩ (.unit ⟨0, 0, []⟩)
    let elem : Ty := .or ⟨0, 0, []⟩ (.scalar ⟨0, 0, []⟩ .nat) units
    let t : Tree := ⟨[.list ⟨0, 0, []⟩ elem], some [.items []]⟩
    let ns : List Node := [.app "Left" [.int 1], .app "Right" [.app "Some" [.app "Unit" [.int 2]]]]
    ∃ e, t.settle ns = .error e ∧ t.step (.settle ns) = t := by
  intro units elem t ns
  have hplace : Ty.IsPlace (.unit ⟨0, 0, []⟩, .app "Unit" [.int 2])
      (.list ⟨0, 0, []⟩ elem, .seq ns) :=
    .tail (.tail (.tail .refl (.item (List.mem_cons_of_mem _ (List.mem_cons_self)))) .right) .some
  have harr : arrange t.roots ns = .ok [.seq ns] := rfl
  exact settle_error_of_miscounts harr List.mem_cons_self hplace (.unit (by simp)) rfl

/-- Of a boolean only the name is looked at: with an argument it settles all the same. -/
theorem settle_miscounted_bool :
    let t : Tree := ⟨[.bool ⟨0, 0, []⟩], none⟩
    let n : Node := .app "True" [.int 1]
    arrange t.roots [n] = .ok [n] ∧ Ty.Miscounts (.bool ⟨0, 0, []⟩, n)
      ∧ t.settle [n] = .ok ⟨t.roots, some [.bool true]⟩ := by
  intro t n
  exact ⟨rfl, .bool (b := true) (by simp), rfl⟩

end Micheline.Tree
