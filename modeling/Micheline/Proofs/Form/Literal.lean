/-
Micheline/Proofs/Form/Literal.lean

Literals that are entered in forms.  A form takes an identifier only as a text that has bytes,
and a point in time only as seconds or as a text that stands for some
(`Literal.IsAccepted`); so a literal that a form takes has every form of writing.
-/
import Micheline.Form.Submission
import Micheline.Proofs.Calendar.Timestamp
import Micheline.Proofs.Form.Entered
import Micheline.Proofs.Value.Comparable

namespace Micheline

open Submission

/-! ### Formats -/

namespace Format

variable {text : String}

theorem fault?_eq_none_of_check {format : Format} (h : format.check text = .ok ()) :
    format.fault? text = none := by
  rw [check] at h
  split at h
  next hfault => exact hfault
  next => cases h

/-- **A text that passes as an identifier has bytes.** -/
theorem exists_toBytes_of_check {role : Identifier.Role}
    (h : check (.identifier role) text = .ok ()) : ∃ data, role.toBytes text = .ok data := by
  have hfault := fault?_eq_none_of_check h
  rw [fault?] at hfault
  split at hfault
  next data hdata => exact ⟨data, hdata⟩
  next => cases hfault

/-- **A text that passes as a point in time stands for seconds.** -/
theorem exists_parse_of_check (h : check .timestamp text = .ok ()) :
    ∃ seconds, Calendar.Timestamp.parse text = .ok seconds := by
  have hfault := fault?_eq_none_of_check h
  rw [fault?, Calendar.Timestamp.validate_eq_map_parse] at hfault
  rcases hparse : Calendar.Timestamp.parse text with e | seconds
  · rw [hparse] at hfault
    cases hfault
  · exact ⟨seconds, rfl⟩

end Format

/-! ### Literals -/

namespace Literal

variable {content : Content} {l : Literal}

/-- A literal as a form takes it: an identifier is a text that has bytes, and the text of a
point in time stands for one. -/
structure IsAccepted (content : Content) (l : Literal) : Prop where
  written : l.IsWritten content
  decodes : Decodes content l

/-- **A literal that a form takes has every form of writing.** -/
theorem IsAccepted.exists_literal (h : IsAccepted content l) (form : ValueForm) :
    ∃ l', form.literal content l = .ok l' := by
  cases form with
  | preserve => exact ⟨l, rfl⟩
  | optimized =>
    rcases optimize_cases_decodes content l with ⟨-, hl⟩ | ⟨hnot, -⟩
    · exact hl
    · exact absurd h.decodes hnot
  | readable =>
    -- bytes of an identifier might have no text, but a form does not take bytes for one
    cases content with
    | identifier role =>
      obtain ⟨text, data, rfl, -⟩ := h.written
      exact ⟨_, rfl⟩
    | _ => cases l <;> exact ⟨_, rfl⟩

end Literal

/-- A text that is taken has passed the check of its format. -/
theorem check_of_checked {ty : Ty} {format : Format} {data : Json} {text : String}
    (h : checked ty format data = .ok text) : format.check text = .ok () := by
  obtain ⟨text', -, h⟩ := bind_eq_ok_iff.1 h
  split at h
  next hcheck =>
    obtain rfl := pure_eq_ok_iff.1 h
    exact hcheck
  next => cases h

/-- **The literal that data is read as is one that a form takes.** -/
theorem exists_isAccepted_of_literal {ty : Ty} {content : Content} {data : Json} {n : Node}
    (h : literal ty content data = .ok n) : ∃ l : Literal, n = l.node ∧ l.IsAccepted content := by
  cases content with
  | integer =>
    obtain ⟨value, -, h⟩ := bind_eq_ok_iff.1 h
    obtain rfl := pure_eq_ok_iff.1 h
    exact ⟨.int value, rfl, trivial, trivial⟩
  | natural =>
    obtain ⟨value, -, h⟩ := bind_eq_ok_iff.1 h
    split at h
    next => cases h
    next =>
      obtain rfl := pure_eq_ok_iff.1 h
      exact ⟨.int value, rfl, trivial, trivial⟩
  | time =>
    cases data with
    -- a number needs no check, a text does
    | num =>
      obtain ⟨value, -, h⟩ := bind_eq_ok_iff.1 h
      obtain rfl := pure_eq_ok_iff.1 h
      exact ⟨.int value, rfl, trivial, trivial⟩
    | _ =>
      obtain ⟨text, htext, h⟩ := bind_eq_ok_iff.1 h
      obtain rfl := pure_eq_ok_iff.1 h
      exact ⟨.string text, rfl, trivial, Format.exists_parse_of_check (check_of_checked htext)⟩
  | identifier role =>
    obtain ⟨text, htext, h⟩ := bind_eq_ok_iff.1 h
    obtain rfl := pure_eq_ok_iff.1 h
    obtain ⟨data, hdata⟩ := Format.exists_toBytes_of_check (check_of_checked htext)
    exact ⟨.string text, rfl, ⟨text, data, rfl, hdata⟩, data, hdata⟩
  | text =>
    obtain ⟨text, -, h⟩ := bind_eq_ok_iff.1 h
    obtain rfl := pure_eq_ok_iff.1 h
    exact ⟨.string text, rfl, trivial, trivial⟩
  | bytes | blob | field =>
    obtain ⟨data, -, h⟩ := bind_eq_ok_iff.1 h
    obtain rfl := pure_eq_ok_iff.1 h
    exact ⟨.bytes data, rfl, trivial, trivial⟩

end Micheline
