/-
Micheline/Proofs/Text/Hex.lean

Bytes are read back from their digits (`Hex.decode_encode`), which do not begin like a marker
(`Hex.dropMarker_encode`) and have no blanks among them.  The texts that are written are known
by their characters (`Hex.isCanonical_iff`).
-/
import Mathlib.Tactic.IntervalCases
import Micheline.Proofs.Text.Ascii
import Micheline.Proofs.Text.Blank
import Micheline.Text.Hex

namespace Micheline.Hex

open Utf8 (code)

theorem value?_code_digit : ∀ n < 16, value? (code (digit n)) = some n := by
  intro n hn
  interval_cases n <;> rfl

theorem toNat_digit_lt : ∀ n < 16, (digit n).toNat < 128 := by
  decide

/-- What holds of every digit holds of those of bytes. -/
theorem forall_mem_digits {p : Char → Prop} (h : ∀ n < 16, p (digit n)) (data : Bytes) :
    ∀ c ∈ data.flatMap digits, p c := by
  intro c hc
  obtain ⟨byte, -, hc⟩ := List.mem_flatMap.1 hc
  have hlt : byte.toNat < 256 := byte.toNat_lt
  rcases List.mem_cons.1 hc with rfl | hc
  · exact h _ (by omega)
  · obtain rfl := List.mem_singleton.1 hc
    exact h _ (by omega)

theorem length_flatMap_digits (data : Bytes) : (data.flatMap digits).length = 2 * data.length := by
  simp [List.length_flatMap, digits, List.map_const', Nat.mul_comm]

theorem encode_eq (data : Bytes) : Utf8.encode (encode data) = (data.flatMap digits).map code :=
  Utf8.encode_ofList_of_ascii (forall_mem_digits toNat_digit_lt data)

/-- A byte after the other, from any position on. -/
theorem pairs_digits (data : Bytes) (index : Nat) :
    pairs index ((data.flatMap digits).map code) = .ok data := by
  induction data generalizing index with
  | nil => rfl
  | cons byte data ih =>
    have hlt : byte.toNat < 256 := byte.toNat_lt
    have hbyte : UInt8.ofNat (16 * (byte.toNat / 16) + byte.toNat % 16) = byte := by
      rw [Nat.div_add_mod, UInt8.ofNat_toNat]
    show pairs index (code (digit (byte.toNat / 16)) :: code (digit (byte.toNat % 16))
      :: (data.flatMap digits).map code) = _
    rw [pairs, value?_code_digit _ (by omega), value?_code_digit _ (by omega)]
    dsimp only
    rw [ih, hbyte]
    rfl

/-- **Bytes are read back from their digits.** -/
theorem decode_encode (data : Bytes) : decode (encode data) = .ok data := by
  have hlen : ((data.flatMap digits).map code).length % 2 = 0 := by
    rw [List.length_map, length_flatMap_digits, Nat.mul_mod_right]
  rw [decode, encode_eq, if_pos hlen, pairs_digits]

theorem digit_ne_x : ∀ n < 16, digit n ≠ 'x' := by
  decide

/-- Digits do not begin with a mark. -/
theorem toList_encode_ne (data : Bytes) (rest : List Char) :
    (encode data).toList ≠ '0' :: 'x' :: rest := by
  rw [encode, String.toList_ofList]
  cases data with
  | nil => exact nofun
  | cons byte data =>
    intro h
    exact digit_ne_x _ (Nat.mod_lt _ (by decide)) (List.cons.inj (List.cons.inj h).2).1

/-- Digits do not begin like the mark of a byte string. -/
theorem dropMarker_encode (data : Bytes) : dropMarker (encode data) = encode data := by
  rw [dropMarker]
  split
  next h => exact absurd h (toList_encode_ne data _)
  next => rfl

theorem dropMarkers_encode (data : Bytes) : dropMarkers (encode data) = encode data := by
  rw [dropMarkers, skipMarkers, String.ofList_toList]
  exact toList_encode_ne data

theorem isBlank_digit : ∀ n < 16, isBlank (digit n) = false := by
  decide

/-- There is no blank among digits. -/
theorem trimBlank_encode (data : Bytes) : trimBlank (encode data) = encode data := by
  apply trimBlank_of_forall
  rw [encode, String.toList_ofList]
  exact forall_mem_digits isBlank_digit data

theorem encode_injective : Function.Injective encode := by
  intro a b h
  have ha := decode_encode a
  rw [h, decode_encode] at ha
  exact (Except.ok.inj ha).symm

/-! ### Canonical texts -/

/-- Whether this is a digit as it is written. -/
def isLowerDigit (c : Char) : Bool :=
  decide ('0' ≤ c ∧ c ≤ '9' ∨ 'a' ≤ c ∧ c ≤ 'f')

/-- Whether a text is that of bytes as they are written: pairs of digits without capitals. -/
def isCanonical (text : String) : Bool :=
  text.toList.length % 2 == 0 && text.toList.all isLowerDigit

theorem isLowerDigit_digit : ∀ n < 16, isLowerDigit (digit n) = true := by
  decide

/-- Each lower digit is that of a number below sixteen. -/
theorem exists_digit {c : Char} (h : isLowerDigit c = true) : ∃ n < 16, digit n = c := by
  have hval : 48 ≤ c.val ∧ c.val ≤ 57 ∨ 97 ≤ c.val ∧ c.val ≤ 102 := of_decide_eq_true h
  have hnat : 48 ≤ c.toNat ∧ c.toNat ≤ 57 ∨ 97 ≤ c.toNat ∧ c.toNat ≤ 102 := hval
  rcases hnat with hdecimal | hletter
  · refine ⟨c.toNat - 48, by omega, ?_⟩
    rw [digit, if_pos (by omega), Nat.add_sub_cancel' hdecimal.1, Char.ofNat_toNat]
  · refine ⟨c.toNat - 87, by omega, ?_⟩
    rw [digit, if_neg (by omega), Nat.add_sub_cancel' (by omega), Char.ofNat_toNat]

/-- Pairs of digits are those of bytes. -/
theorem exists_flatMap_digits : ∀ {cs : List Char}, cs.length % 2 = 0 →
    (∀ c ∈ cs, isLowerDigit c = true) → ∃ data : Bytes, data.flatMap digits = cs
  | [], _, _ => ⟨[], rfl⟩
  | [c], hlen, _ => absurd hlen (by simp)
  | high :: low :: cs, hlen, hcs => by
    obtain ⟨hhigh, hlow, hrest⟩ : isLowerDigit high = true ∧ isLowerDigit low = true
        ∧ ∀ c ∈ cs, isLowerDigit c = true := by
      simpa using hcs
    obtain ⟨h, hh, rfl⟩ := exists_digit hhigh
    obtain ⟨l, hl, rfl⟩ := exists_digit hlow
    obtain ⟨data, rfl⟩ := exists_flatMap_digits (by rwa [← Nat.add_mod_right]) hrest
    have hbyte : (UInt8.ofNat (16 * h + l)).toNat = 16 * h + l := by
      rw [UInt8.toNat_ofNat', Nat.mod_eq_of_lt (by omega)]
    refine ⟨UInt8.ofNat (16 * h + l) :: data, ?_⟩
    rw [List.flatMap_cons, digits, hbyte, Nat.mul_add_div (by decide), Nat.div_eq_of_lt hl,
      Nat.mul_add_mod, Nat.mod_eq_of_lt hl]
    rfl

/-- **The texts that bytes are written as.** -/
theorem isCanonical_iff {text : String} : isCanonical text = true ↔ ∃ data, encode data = text := by
  rw [isCanonical, Bool.and_eq_true, beq_iff_eq, List.all_eq_true]
  constructor
  · rintro ⟨hlen, hdigits⟩
    obtain ⟨data, hdata⟩ := exists_flatMap_digits hlen hdigits
    exact ⟨data, by rw [encode, hdata, String.ofList_toList]⟩
  · rintro ⟨data, rfl⟩
    rw [encode, String.toList_ofList]
    exact ⟨by rw [length_flatMap_digits, Nat.mul_mod_right],
      forall_mem_digits isLowerDigit_digit data⟩

end Micheline.Hex
