/-
Micheline/Proofs/Text/Blank.lean

Texts without the blanks at their ends.
-/
import Mathlib.Data.List.TakeWhile
import Micheline.Text.Blank

namespace Micheline

theorem dropWhile_isBlank_eq_self {cs : List Char} (h : ∀ c ∈ cs, isBlank c = false) :
    cs.dropWhile isBlank = cs := by
  cases cs with
  | nil => rfl
  | cons c cs => rw [List.dropWhile_cons, if_neg (by simp [h c List.mem_cons_self])]

/-- A text without blanks stays. -/
theorem trimBlank_of_forall {text : String} (h : ∀ c ∈ text.toList, isBlank c = false) :
    trimBlank text = text := by
  have hreverse : ∀ c ∈ text.toList.reverse, isBlank c = false :=
    fun c hc => h c (List.mem_reverse.1 hc)
  rw [trimBlank, dropWhile_isBlank_eq_self h, dropWhile_isBlank_eq_self hreverse,
    List.reverse_reverse, String.ofList_toList]

/-- Blanks behind a text are dropped. -/
theorem trimBlank_append {text blanks : String} (h : ∀ c ∈ blanks.toList, isBlank c = true) :
    trimBlank (text ++ blanks) = trimBlank text := by
  have hblanks : blanks.toList.dropWhile isBlank = [] := List.dropWhile_eq_nil_iff.2 h
  have hreverse : blanks.toList.reverse.dropWhile isBlank = [] :=
    List.dropWhile_eq_nil_iff.2 fun c hc => h c (List.mem_reverse.1 hc)
  rw [trimBlank, trimBlank, String.toList_append, List.dropWhile_append, hblanks]
  split
  next hempty => rw [List.isEmpty_iff.1 hempty]
  next =>
    rw [List.reverse_append, List.dropWhile_append, hreverse]
    rfl

end Micheline
