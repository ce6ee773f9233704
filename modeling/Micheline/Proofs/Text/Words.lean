/-
Micheline/Proofs/Text/Words.lean

Texts as words with blanks between them.  Annotations are written as one text, joined by
blanks, and read back as the words of that text.

Main results: the words of joined texts are the words of each in turn
(`words_intercalate`); and joining the words of a text gives a text that is no longer
(`length_encode_join_words_le`), the same one exactly when it has no blank at an end and
no two blanks in a row (`join_words_eq_iff`).
-/
import Mathlib.Data.List.Flatten
import Mathlib.Data.Option.Basic
import Micheline.Binary.Decode
import Micheline.Node.Annot

namespace Micheline

/-! ### Words -/

/-- The pieces of a text between blanks, without the empty ones. -/
def Annot.split (annot : String) : List String :=
  ((annot.toList.splitOn ' ').filter (· ≠ [])).map String.ofList

/-- An annotation that is one word. -/
def Annot.IsWord (annot : String) : Prop :=
  annot ≠ "" ∧ ' ' ∉ annot.toList

namespace Binary

/-- The pieces of a text are what stands between its spaces. -/
theorem pieces_eq_splitOn (cs : List Char) : pieces cs = cs.splitOn ' ' := by
  induction cs with
  | nil => rfl
  | cons c cs ih =>
    rw [pieces, List.splitOn_cons_eq_if_modifyHead, ih]
    by_cases h : c = ' '
    · simp [h]
    · rw [if_neg h, if_neg (by simpa using h)]
      rcases e : cs.splitOn ' ' with - | ⟨p, ps⟩
      · exact absurd e (List.splitOn_ne_nil ' ' cs)
      · rfl

/-- Words of annotations are found as the decoder finds them. -/
theorem words_eq_split (text : String) : words text = Annot.split text := by
  rw [words, pieces_eq_splitOn, Annot.split]
  congr 1
  -- the two tests for an empty piece agree
  refine List.filter_congr fun p _ => ?_
  cases p <;> simp

end Binary

namespace Annot

/-- A well-formed annotation is a sigil and a name. -/
theorem exists_toList_of_isValid {annot : String} (h : isValid annot = true) :
    ∃ c cs, annot.toList = c :: cs ∧ (sigil? c).isSome = true ∧ ∀ d ∈ cs, isNameChar d = true := by
  obtain ⟨parts, hparts⟩ := Option.isSome_iff_exists.1 h
  rw [parts?] at hparts
  split at hparts
  next => cases hparts
  next c cs hcs =>
    simp only [Option.bind_eq_bind, Option.bind_eq_some_iff] at hparts
    obtain ⟨sigil, hsigil, _, hguard, -⟩ := hparts
    obtain ⟨-, hall⟩ := Bool.and_eq_true_iff.1 ((Option.guard_eq_some' _).1 hguard)
    exact ⟨c, cs, hcs, Option.isSome_iff_exists.2 ⟨sigil, hsigil⟩, List.all_eq_true.1 hall⟩

/-- A valid annotation is one word. -/
theorem isWord_of_isValid {annot : String} (h : isValid annot = true) : IsWord annot := by
  obtain ⟨c, cs, hcs, hc, hname⟩ := exists_toList_of_isValid h
  constructor
  · rintro rfl
    cases hcs
  · rw [hcs]
    intro hblank
    -- neither a sigil nor a character of a name is a blank
    rcases List.mem_cons.1 hblank with rfl | hmem
    · cases hc
    · cases hname ' ' hmem

theorem split_eq_of_isWord {annot : String} (h : IsWord annot) : split annot = [annot] := by
  have hne : annot.toList ≠ [] := fun he => h.1 (String.toList_eq_nil_iff.1 he)
  rw [split, List.splitOn_eq_singleton h.2]
  simp [hne]

theorem flatMap_split_of_isWord {annots : List String} (h : ∀ a ∈ annots, IsWord a) :
    annots.flatMap split = annots := by
  induction annots with
  | nil => rfl
  | cons a as ih =>
    have ha : split a = [a] := split_eq_of_isWord (h a (by simp))
    have has : as.flatMap split = as := ih fun b hb => h b (by simp [hb])
    rw [List.flatMap_cons, ha, has, List.singleton_append]

/-- No piece between blanks holds one. -/
theorem blank_notMem_of_mem_splitOn {cs p : List Char} (h : p ∈ cs.splitOn ' ') : ' ' ∉ p := by
  induction cs generalizing p with
  | nil => simp_all
  | cons c cs ih =>
    rw [List.splitOn_cons_eq_if_modifyHead] at h
    by_cases hc : c = ' '
    · -- a blank puts an empty piece in front
      rw [if_pos (by simpa using hc)] at h
      rcases List.mem_cons.1 h with rfl | h
      · simp
      · exact ih h
    · rw [if_neg (by simpa using hc)] at h
      rcases e : cs.splitOn ' ' with - | ⟨q, qs⟩
      · simp [e] at h
      · -- any other character goes to the first piece
        rw [e] at h ih
        rcases List.mem_cons.1 h with rfl | h
        · have hq : ' ' ∉ q := ih (by simp)
          simp [hq, Ne.symm hc]
        · exact ih (by simp [h])

theorem isWord_of_mem_split {annot w : String} (h : w ∈ split annot) : IsWord w := by
  obtain ⟨p, hp, rfl⟩ := List.mem_map.1 h
  obtain ⟨hp, hne⟩ := List.mem_filter.1 hp
  refine ⟨?_, ?_⟩
  · intro he
    have : p = [] := by simpa using congrArg String.toList he
    simp [this] at hne
  · simpa using blank_notMem_of_mem_splitOn hp

/-- The words of two texts with a blank between them. -/
theorem split_append_blank (a b : String) : split (a ++ " " ++ b) = split a ++ split b := by
  have h : (a ++ " " ++ b).toList = a.toList ++ ' ' :: b.toList := by simp
  rw [split, h, List.splitOn_append_cons_self]
  simp [split]

end Annot

namespace Binary

/-- **Reading joined annotations**: the words of each, in order. -/
theorem words_intercalate (annots : List String) :
    words (" ".intercalate annots) = annots.flatMap Annot.split := by
  rw [words_eq_split]
  induction annots with
  | nil => simp [Annot.split]
  | cons a as ih =>
    rcases as with - | ⟨b, bs⟩
    · simp
    · rw [String.intercalate_cons_cons, Annot.split_append_blank, ih, ← List.flatMap_cons]

theorem isWord_of_mem_words {text w : String} (h : w ∈ words text) : Annot.IsWord w := by
  rw [words_eq_split] at h
  exact Annot.isWord_of_mem_split h

/-! ### Tight texts -/

/-- No blank at an end and no two blanks in a row. -/
structure IsTight (text : String) : Prop where
  head : text.toList.head? ≠ some ' '
  last : text.toList.getLast? ≠ some ' '
  inner : ¬ [' ', ' '] <:+: text.toList

/-- A piece after the first is empty where a blank ends the text or follows a blank. -/
theorem nil_mem_tail_splitOn_iff (cs : List Char) :
    [] ∈ (cs.splitOn ' ').tail ↔ cs.getLast? = some ' ' ∨ [' ', ' '] <:+: cs := by
  induction cs with
  | nil => simp
  | cons c cs ih =>
    -- An empty piece after the first comes from a blank at the end or from two next to each other.
    rw [List.splitOn_cons_eq_if_modifyHead, List.infix_cons_iff, List.cons_prefix_cons]
    by_cases hc : c = ' '
    · subst hc
      rcases cs with - | ⟨d, ds⟩
      · simp
      · rw [if_pos (by simp), List.tail_cons, List.getLast?_cons_cons]
        rw [List.splitOn_cons_eq_if_modifyHead] at ih ⊢
        by_cases hd : d = ' '
        · simp [hd]
        · rw [if_neg (by simpa using hd)] at ih ⊢
          rcases e : ds.splitOn ' ' with - | ⟨p, ps⟩
          · exact absurd e (List.splitOn_ne_nil ' ' ds)
          · rw [e] at ih
            simpa [Ne.symm hd] using ih
    · rw [if_neg (by simpa using hc), List.tail_modifyHead, ih]
      rcases cs with - | ⟨d, ds⟩
      · simp [hc, Ne.symm hc]
      · simp [Ne.symm hc]

/-- There is an empty piece where a text begins or ends with a space, or has two in a row. -/
theorem nil_mem_splitOn_iff (cs : List Char) :
    [] ∈ cs.splitOn ' ' ↔ cs = [] ∨ cs.head? = some ' ' ∨ [] ∈ (cs.splitOn ' ').tail := by
  rcases cs with - | ⟨c, cs⟩
  · simp
  · rw [List.splitOn_cons_eq_if_modifyHead]
    by_cases hc : c = ' '
    · simp [hc]
    · rw [if_neg (by simpa using hc)]
      rcases e : cs.splitOn ' ' with - | ⟨p, ps⟩
      · exact absurd e (List.splitOn_ne_nil ' ' cs)
      · simp [hc]

/-- A text is tight when it is empty or no piece between its blanks is. -/
theorem isTight_iff (text : String) :
    IsTight text ↔ text = "" ∨ [] ∉ text.toList.splitOn ' ' := by
  rw [nil_mem_splitOn_iff, nil_mem_tail_splitOn_iff]
  constructor
  · rintro ⟨h₁, h₂, h₃⟩
    by_cases he : text = ""
    · exact .inl he
    · simp_all
  · rintro (rfl | h)
    · exact ⟨by simp, by simp, by simp⟩
    · simp only [not_or] at h
      exact ⟨h.2.1, h.2.2.1, h.2.2.2⟩

/-! ### Joining words again -/

theorem toList_join_words (text : String) :
    (" ".intercalate (words text)).toList
      = [' '].intercalate ((text.toList.splitOn ' ').filter (· ≠ [])) := by
  rw [words_eq_split, Annot.split, String.toList_intercalate]
  simp

/-- A text is put together of its words exactly if it is tight. -/
theorem join_words_eq_iff (text : String) :
    " ".intercalate (words text) = text ↔ IsTight text := by
  rw [isTight_iff, ← String.toList_inj, toList_join_words]
  constructor
  · intro h
    by_cases hne : (text.toList.splitOn ' ').filter (· ≠ []) = []
    · -- without words the text is empty
      rw [hne] at h
      exact .inl (String.toList_eq_nil_iff.1 h.symm)
    · have hw : ∀ p ∈ (text.toList.splitOn ' ').filter (· ≠ []), ' ' ∉ p := fun p hp =>
        Annot.blank_notMem_of_mem_splitOn (List.mem_filter.1 hp).1
      have hs := List.splitOn_intercalate ' ' hw hne
      rw [h] at hs
      right
      rw [hs]
      simp
  · rintro (rfl | h)
    · simp
    · have hf : (text.toList.splitOn ' ').filter (· ≠ []) = text.toList.splitOn ' ' := by
        rw [List.filter_eq_self]
        intro p hp
        simpa using fun he : p = [] => h (he ▸ hp)
      rw [hf, List.intercalate_splitOn]

/-- Leaving pieces out leaves out characters only. -/
theorem intercalate_sublist {α : Type} (sep : List α) {ps qs : List (List α)}
    (h : ps.Sublist qs) : (sep.intercalate ps).Sublist (sep.intercalate qs) := by
  induction h with
  | slnil => exact List.Sublist.refl _
  | @cons ps qs q h ih =>
    rcases qs with - | ⟨r, rs⟩
    · obtain rfl := List.sublist_nil.1 h
      simp
    · rw [List.intercalate_cons_cons]
      exact ih.trans (List.sublist_append_right _ _)
  | @cons_cons ps qs q h ih =>
    rcases qs with - | ⟨r, rs⟩
    · obtain rfl := List.sublist_nil.1 h
      exact List.Sublist.refl _
    -- The separator before what is kept is there only if something is kept after it.
    · rcases ps with - | ⟨p, ps⟩
      · rw [List.intercalate_cons_cons, List.intercalate_singleton, List.append_assoc]
        exact List.sublist_append_left _ _
      · rw [List.intercalate_cons_cons, List.intercalate_cons_cons]
        exact ih.append_left _

theorem encode_eq_flatMap (text : String) :
    Utf8.encode text = text.toList.flatMap String.utf8EncodeChar := by
  rw [Utf8.encode, String.toUTF8_eq_toByteArray, ← String.utf8Encode_toList, List.utf8Encode]
  simp

/-- Words with single spaces take no more bytes than the text that they were taken from. -/
theorem length_encode_join_words_le (text : String) :
    (annotText (words text)).length ≤ (Utf8.encode text).length := by
  have h : ((" ".intercalate (words text)).toList).Sublist text.toList := by
    rw [toList_join_words]
    have hs := intercalate_sublist [' '] (List.filter_sublist (p := (· ≠ []))
      (l := text.toList.splitOn ' '))
    rwa [List.intercalate_splitOn] at hs
  rw [annotText, encode_eq_flatMap, encode_eq_flatMap]
  exact (h.flatMap _).length_le

end Binary

end Micheline
