/-
Micheline/Proofs/Text/Ascii.lean

Texts and their bytes.  No two texts have the same bytes, and an ASCII character is one byte,
its code.
-/
import Micheline.Proofs.Text.Words

namespace Micheline.Utf8

theorem encode_injective : Function.Injective encode := by
  intro x y h
  have hx : decode? (encode y) = some x := decode?_eq_some_iff.2 h.symm
  rw [decode?_encode] at hx
  exact (Option.some.inj hx).symm

/-- An ASCII character as a byte. -/
def code (c : Char) : UInt8 :=
  UInt8.ofNat c.toNat

/-- A character below 128 is one byte. -/
theorem utf8EncodeChar_of_ascii {c : Char} (h : c.toNat < 128) :
    String.utf8EncodeChar c = [code c] := by
  have hsize : c.utf8Size = 1 := by
    rw [Char.utf8Size_eq_one_iff, UInt32.le_iff_toNat_le]
    exact Nat.le_of_lt_succ h
  rw [String.utf8EncodeChar_eq_singleton hsize]
  rfl

theorem encode_ofList_of_ascii {cs : List Char} (h : ∀ c ∈ cs, c.toNat < 128) :
    encode (String.ofList cs) = cs.map code := by
  rw [Binary.encode_eq_flatMap, String.toList_ofList]
  induction cs with
  | nil => rfl
  | cons c cs ih =>
    obtain ⟨hc, hcs⟩ := List.forall_mem_cons.1 h
    rw [List.flatMap_cons, utf8EncodeChar_of_ascii hc, ih hcs]
    rfl

end Micheline.Utf8
