/-
Micheline/Proofs/Calendar/Timestamp.lean

Points in time are read back from their texts (`Timestamp.parse_of_text?`), if their year has
four digits.  Numbers in a text have a fixed number of digits; a text is cut into them by
their places, and each part is read on its own.

The text of a point in time in another year has a sign in front and is not in the form of
RFC 3339.
-/
import Mathlib.Tactic.IntervalCases
import Micheline.Calendar.Timestamp
import Micheline.Proofs.Calendar.Date
import Micheline.Proofs.Except
import Micheline.Proofs.Text.Ascii

namespace Micheline.Calendar.Timestamp

open Utf8 (code)

/-! ### Numbers with a fixed number of digits -/

/-- The last digits of a number. -/
def lastDigits : Nat → Nat → List Char
  | 0, _ => []
  | k + 1, n => lastDigits k (n / 10) ++ [(n % 10).digitChar]

/-- A number with zeros in front. -/
def padded (k n : Nat) : List Char :=
  List.replicate (k - (Nat.toDigits 10 n).length) '0' ++ Nat.toDigits 10 n

theorem padded_of_lt {k n : Nat} (h : n < 10) :
    padded (k + 1) n = List.replicate k '0' ++ [n.digitChar] := by
  rw [padded, Nat.toDigits_of_lt_base h]
  rfl

/-- **Zeros in front fill up the digits.** -/
theorem padded_eq_lastDigits {k n : Nat} (h : n < 10 ^ (k + 1)) :
    padded (k + 1) n = lastDigits (k + 1) n := by
  induction k generalizing n with
  | zero =>
    have hlt : n < 10 := h
    rw [padded_of_lt hlt, lastDigits, Nat.mod_eq_of_lt hlt]
    rfl
  | succ k ih =>
    -- Both take the last digit off: the padding goes to the front, before the first.
    have hdiv : n / 10 < 10 ^ (k + 1) := by
      apply Nat.div_lt_of_lt_mul
      rw [← Nat.pow_succ']
      exact h
    rw [lastDigits, ← ih hdiv]
    by_cases hlt : n < 10
    · have hzero : n / 10 = 0 := Nat.div_eq_of_lt hlt
      rw [padded_of_lt hlt, hzero, padded_of_lt (by decide), Nat.mod_eq_of_lt hlt,
        List.replicate_succ']
      rfl
    · have hdigits : Nat.toDigits 10 n = Nat.toDigits 10 (n / 10) ++ [(n % 10).digitChar] :=
        Nat.toDigits_of_base_le (by decide) (by omega)
      rw [padded, padded, hdigits, List.length_append, List.append_assoc]
      congr 2
      exact Nat.add_sub_add_right _ _ _

/-- Below a hundred, padding gives the last two digits. -/
theorem toList_padTwo {n : Nat} (h : n < 100) : (padTwo n).toList = lastDigits 2 n := by
  rw [← padded_eq_lastDigits (k := 1) h, padTwo, padded, Decimal.ofNat,
    Nat.repr_eq_ofList_toDigits]
  split
  next hlt =>
    rw [Nat.toDigits_of_lt_base hlt, String.toList_append, String.toList_ofList,
      String.toList_ofList]
    rfl
  next hge =>
    have hdigits : Nat.toDigits 10 n = [(n / 10).digitChar] ++ [(n % 10).digitChar] := by
      rw [Nat.toDigits_of_base_le (by decide) (by omega), Nat.toDigits_of_lt_base (by omega)]
    rw [hdigits, String.toList_ofList]
    rfl

theorem toList_yearText {year : Int} (h : 0 ≤ year ∧ year ≤ 9999) :
    (yearText year).toList = lastDigits 4 year.natAbs := by
  rw [yearText, if_pos h, String.toList_ofList]
  exact padded_eq_lastDigits (k := 3) (by omega)

/-! ### Digits as bytes -/

/-- The first digit of a number of two digits. -/
def tens (n : Nat) : UInt8 := code (n / 10 % 10).digitChar

/-- The second digit of a number of two digits. -/
def ones (n : Nat) : UInt8 := code (n % 10).digitChar

theorem digit_code : ∀ d < 10, digit (code (Nat.digitChar d)) = .ok d := by
  intro d hd
  interval_cases d <;> rfl

theorem twoDigits_eq {n : Nat} (h : n < 100) : twoDigits (tens n) (ones n) = .ok n := by
  rw [twoDigits, tens, ones, digit_code _ (Nat.mod_lt _ (by decide)),
    digit_code _ (Nat.mod_lt _ (by decide))]
  show Except.ok (n / 10 % 10 * 10 + n % 10) = _
  congr 1
  omega

theorem map_code_lastDigits_two (n : Nat) : (lastDigits 2 n).map code = [tens n, ones n] := rfl

theorem map_code_lastDigits_four (n : Nat) :
    (lastDigits 4 n).map code
      = [tens (n / 100), ones (n / 100), tens (n % 100), ones (n % 100)] := by
  have h₁ : n / 10 / 10 / 10 % 10 = n / 100 / 10 % 10 := by omega
  have h₂ : n / 10 / 10 % 10 = n / 100 % 10 := by omega
  have h₃ : n / 10 % 10 = n % 100 / 10 % 10 := by omega
  have h₄ : n % 10 = n % 100 % 10 := by omega
  rw [tens, ones, tens, ones, ← h₁, ← h₂, ← h₃, ← h₄]
  rfl

theorem toNat_lt_of_mem_lastDigits {k n : Nat} {c : Char} (h : c ∈ lastDigits k n) :
    c.toNat < 128 := by
  have hdigit : ∀ d < 10, (Nat.digitChar d).toNat < 128 := by decide
  induction k generalizing n with
  | zero => cases h
  | succ k ih =>
    rcases List.mem_append.1 h with h | h
    · exact ih h
    · obtain rfl := List.mem_singleton.1 h
      exact hdigit _ (Nat.mod_lt _ (by decide))

/-! ### Reading the parts -/

section Parts

variable {rest : Bytes}

theorem lt_of_exists? {d : Date} (hd : d.exists? = true) : d.month < 100 ∧ d.day < 100 := by
  simp only [Date.exists?, Bool.and_eq_true, decide_eq_true_eq] at hd
  have hlen : monthLength d.year d.month ≤ 31 := by
    rw [monthLength]
    split
    · split <;> decide
    · split <;> decide
  omega

/-- A date is read from the text that is written for it, and what follows is left. -/
theorem date_eq {d : Date} (hyear : 0 ≤ d.year ∧ d.year ≤ 9999) (hd : d.exists? = true) :
    date ((lastDigits 4 d.year.natAbs).map code ++ code '-' :: ((lastDigits 2 d.month).map code
      ++ code '-' :: ((lastDigits 2 d.day).map code ++ rest))) = .ok (d, rest) := by
  obtain ⟨hmonth, hday⟩ := lt_of_exists? hd
  have hsum : ((d.year.natAbs / 100 : Nat) : Int) * 100 + (d.year.natAbs % 100 : Nat) = d.year := by
    omega
  have hmark : mark '-' (code '-') = .ok () := rfl
  rw [map_code_lastDigits_four, map_code_lastDigits_two, map_code_lastDigits_two]
  simp only [List.cons_append, List.nil_append, date, hmark, twoDigits_eq hmonth, twoDigits_eq hday,
    twoDigits_eq (show d.year.natAbs / 100 < 100 by omega),
    twoDigits_eq (show d.year.natAbs % 100 < 100 by omega)]
  show (if Date.exists? ⟨((d.year.natAbs / 100 : Nat) : Int) * 100 + (d.year.natAbs % 100 : Nat),
    d.month, d.day⟩ = true then pure (_, rest) else _) = _
  rw [hsum, if_pos hd]
  rfl

/-- A time of day is read from the text that is written for it, and what follows is left. -/
theorem clock_eq {h m s : Nat} (hh : h < 100) (hm : m < 100) (hs : s < 100) :
    clock (code 'T' :: ((lastDigits 2 h).map code ++ code ':' :: ((lastDigits 2 m).map code
      ++ code ':' :: ((lastDigits 2 s).map code ++ rest)))) = .ok ((h, m, s), rest) := by
  have hmark : mark ':' (code ':') = .ok () := rfl
  rw [map_code_lastDigits_two, map_code_lastDigits_two, map_code_lastDigits_two]
  simp only [List.cons_append, List.nil_append, clock, hmark, twoDigits_eq hh, twoDigits_eq hm,
    twoDigits_eq hs]
  rfl

end Parts

/-! ### Texts -/

/-- The characters of a point in time. -/
def chars (d : Date) (h m s : Nat) : List Char :=
  lastDigits 4 d.year.natAbs ++ '-' :: (lastDigits 2 d.month ++ '-' :: (lastDigits 2 d.day
    ++ 'T' :: (lastDigits 2 h ++ ':' :: (lastDigits 2 m ++ ':' :: (lastDigits 2 s ++ ['Z'])))))

theorem toNat_lt_of_mem_chars {d : Date} {h m s : Nat} : ∀ c ∈ chars d h m s, c.toNat < 128 := by
  intro c hc
  simp only [chars, List.mem_append, List.mem_cons, List.not_mem_nil, or_false] at hc
  rcases hc with hc | rfl | hc | rfl | hc | rfl | hc | rfl | hc | rfl | hc | rfl
  all_goals first
    | exact toNat_lt_of_mem_lastDigits hc
    | decide

/-- The text of a date and a time of day stands for the seconds up to them. -/
theorem ofRfc3339_ofList_chars {d : Date} {h m s : Nat} (hyear : 0 ≤ d.year ∧ d.year ≤ 9999)
    (hd : d.exists? = true) (hh : h < 24) (hm : m < 60) (hs : s < 60) :
    ofRfc3339 (String.ofList (chars d h m s))
      = .ok (d.toDays * 86400 + (h * 3600 + m * 60 + s : Nat)) := by
  have hdata : Utf8.encode (String.ofList (chars d h m s)) = (chars d h m s).map code :=
    Utf8.encode_ofList_of_ascii toNat_lt_of_mem_chars
  have hlen : ¬ ((chars d h m s).map code).length < 19 := by
    simp [chars, lastDigits]
  have hparts : (chars d h m s).map code = (lastDigits 4 d.year.natAbs).map code ++ code '-'
      :: ((lastDigits 2 d.month).map code ++ code '-' :: ((lastDigits 2 d.day).map code
      ++ code 'T' :: ((lastDigits 2 h).map code ++ code ':' :: ((lastDigits 2 m).map code
      ++ code ':' :: ((lastDigits 2 s).map code ++ [code 'Z']))))) := by
    simp only [chars, List.map_append, List.map_cons, List.map_nil]
  -- there is no fraction, and the zone is universal time
  have hzone : skipFraction [code 'Z'] = .ok [code 'Z'] ∧ zone [code 'Z'] = .ok 0 := ⟨rfl, rfl⟩
  have hclock : ¬ (24 ≤ h ∨ 60 ≤ m ∨ 61 ≤ s) := by omega
  rw [ofRfc3339, hdata]
  simp only [if_neg hlen]
  rw [hparts]
  refine bind_eq_ok_iff.2 ⟨_, date_eq hyear hd, ?_⟩
  refine bind_eq_ok_iff.2 ⟨_, clock_eq (by omega) (by omega) (by omega), ?_⟩
  refine bind_eq_ok_iff.2 ⟨_, hzone.1, ?_⟩
  dsimp only
  rw [if_neg hclock]
  refine bind_eq_ok_iff.2 ⟨_, hzone.2, ?_⟩
  rw [if_neg (by omega), Int.sub_zero]
  rfl

/-- A character that is no digit makes a text no number. -/
theorem natural?_eq_none {cs : List Char} {c : Char} (h : c ∈ cs)
    (hc : Decimal.digit? c = none) : Decimal.natural? cs = none := by
  have hfold : ∀ value, cs.foldlM
      (fun value c => (Decimal.digit? c).map (value * 10 + ·)) value = none := by
    induction cs with
    | nil => cases h
    | cons c' cs ih =>
      intro value
      rw [List.foldlM_cons]
      rcases List.mem_cons.1 h with rfl | h
      · rw [hc]
        rfl
      · rcases Decimal.digit? c' with - | d
        · rfl
        · exact ih h _
  rw [Decimal.natural?, hfold]
  split <;> rfl

/-- No such text is an integer. -/
theorem toInt64?_ofList_chars (d : Date) (h m s : Nat) :
    Decimal.toInt64? (String.ofList (chars d h m s)) = none := by
  have hnatural : Decimal.natural? (chars d h m s) = none := by
    apply natural?_eq_none (c := '-') _ rfl
    simp [chars]
  have hsign : ∀ n < 10, Nat.digitChar n ≠ '-' ∧ Nat.digitChar n ≠ '+' := by decide
  obtain ⟨hminus, hplus⟩ := hsign (d.year.natAbs / 10 / 10 / 10 % 10) (Nat.mod_lt _ (by decide))
  obtain ⟨rest, hrest⟩ : ∃ rest, chars d h m s
      = (d.year.natAbs / 10 / 10 / 10 % 10).digitChar :: rest := ⟨_, rfl⟩
  rw [Decimal.toInt64?, String.toList_ofList]
  rw [hrest] at hnatural ⊢
  -- there is no sign in front
  split
  next he => exact absurd (List.cons.inj he).1 hminus
  next he => exact absurd (List.cons.inj he).1 hplus
  next =>
    rw [hnatural]
    rfl

/-- Whether the year of a point in time has four digits and no sign. -/
def HasPlainYear (seconds : Int) : Prop :=
  0 ≤ (Date.ofDays (seconds / 86400)).year ∧ (Date.ofDays (seconds / 86400)).year ≤ 9999

instance (seconds : Int) : Decidable (HasPlainYear seconds) :=
  inferInstanceAs (Decidable (_ ∧ _))

/-- The text of a point in time whose year has four digits. -/
theorem text?_eq {seconds : Int} {text : String} (h : text? seconds = some text)
    (hyear : HasPlainYear seconds) :
    ∃ h m s, h < 24 ∧ m < 60 ∧ s < 60 ∧ ((h * 3600 + m * 60 + s : Nat) : Int) = seconds % 86400
      ∧ text = String.ofList (chars (Date.ofDays (seconds / 86400)) h m s) := by
  obtain ⟨second, hsecond⟩ : ∃ second, second = (seconds % 86400).toNat := ⟨_, rfl⟩
  refine ⟨second / 3600, second / 60 % 60, second % 60, by omega, by omega, by omega, by omega, ?_⟩
  obtain ⟨hmonth, hday⟩ := lt_of_exists? (Date.exists?_ofDays (seconds / 86400))
  rw [text?] at h
  split at h
  next =>
    rw [← Option.some.inj h, ← hsecond]
    apply String.toList_inj.1
    simp only [String.toList_append, String.toList_ofList, toList_yearText hyear,
      toList_padTwo hmonth, toList_padTwo hday, toList_padTwo (show second / 3600 < 100 by omega),
      toList_padTwo (show second / 60 % 60 < 100 by omega),
      toList_padTwo (show second % 60 < 100 by omega)]
    simp [chars]
  next => cases h

/-- A point in time whose year has four digits has a text. -/
theorem exists_text? {seconds : Int} (hyear : HasPlainYear seconds) :
    ∃ text, text? seconds = some text := by
  have hdays := Date.toDays_ofDays (seconds / 86400)
  have hexists := Date.exists?_ofDays (seconds / 86400)
  obtain ⟨hmonth, hday⟩ := lt_of_exists? hexists
  obtain ⟨hlow, hhigh⟩ := hyear
  simp only [Date.toDays] at hdays
  have hbounds : first ≤ seconds ∧ seconds ≤ last := by
    rw [first, last]
    split at hdays <;> omega
  exact ⟨_, if_pos hbounds⟩

/-- **A point in time is read back from its text**, if its year has four digits. -/
theorem parse_of_text? {seconds : Int} {text : String} (h : text? seconds = some text)
    (hyear : HasPlainYear seconds) : parse text = .ok seconds := by
  obtain ⟨h, m, s, hh, hm, hs, hclock, rfl⟩ := text?_eq h hyear
  rw [parse, toInt64?_ofList_chars]
  dsimp only
  rw [ofRfc3339_ofList_chars hyear (Date.exists?_ofDays _) hh hm hs, Date.toDays_ofDays, hclock]
  congr 1
  omega

/-- **A text passes exactly if it stands for a point in time**, and where it does not both say
the same of it. -/
theorem validate_eq_map_parse (text : String) : validate text = (parse text).map fun _ => () := by
  rw [validate, parse]
  rcases Decimal.toInt64? text with _ | seconds
  · show (ofRfc3339 text >>= fun _ => pure ()) = _
    rcases ofRfc3339 text with e | seconds <;> rfl
  · rfl

end Micheline.Calendar.Timestamp
