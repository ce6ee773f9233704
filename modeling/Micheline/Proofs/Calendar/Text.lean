/-
Micheline/Proofs/Calendar/Text.lean

Texts of points in time tell them apart (`Timestamp.text?_injective`), whatever the year.
Behind the year the parts of a text have a fixed number of characters, so that two equal
texts have equal years and equal rests.

What a text is read as, if it is read, is the point in time that it was written for
(`Timestamp.eq_of_parse_text?`).  The same goes for the digits of a second count that has no
text (`Timestamp.eq_of_parse_ofInt`), since these are never in the form of RFC 3339.  So a
text stands for one point in time, however it came about (`Timestamp.StandsFor.eq`).
-/
import Micheline.Proofs.Calendar.Timestamp
import Micheline.Proofs.Text.Decimal

namespace Micheline.Calendar.Timestamp

open Utf8 (code)

/-! ### Years -/

theorem isDigit_of_mem_padded {k n : Nat} {c : Char} (h : c ∈ padded k n) : c.isDigit = true := by
  rcases List.mem_append.1 h with h | h
  · rw [List.eq_of_mem_replicate h]
    rfl
  · exact Nat.isDigit_of_mem_toDigits (by decide) (by decide) h

/-- Zeros in front do not make different numbers alike. -/
theorem padded_injective {k m n : Nat} (h : padded k m = padded k n) : m = n := by
  -- zeros in front do not count
  have hzeros : ∀ (j : Nat) (cs : List Char),
      Nat.ofDigitChars 10 (List.replicate j '0' ++ cs) 0 = Nat.ofDigitChars 10 cs 0 := by
    intro j cs
    induction j with
    | zero => rfl
    | succ j ih =>
      rw [List.replicate_succ, List.cons_append, Nat.ofDigitChars_cons]
      exact ih
  have hvalue : ∀ n, Nat.ofDigitChars 10 (padded k n) 0 = n := by
    intro n
    rw [padded, hzeros, Nat.ofDigitChars_ten_toDigits]
  rw [← hvalue m, h, hvalue n]

/-- A year that is not of four digits has a sign in front. -/
theorem toList_yearText_of_not {year : Int} (h : ¬(0 ≤ year ∧ year ≤ 9999)) :
    (yearText year).toList = (if year < 0 then '-' else '+') :: padded 4 year.natAbs := by
  rw [yearText, if_neg h]
  split
  next =>
    rw [String.toList_append]
    exact congrArg ('-' :: ·) String.toList_ofList
  next =>
    rw [String.toList_append]
    exact congrArg ('+' :: ·) String.toList_ofList

theorem toList_yearText_of_plain {year : Int} (h : 0 ≤ year ∧ year ≤ 9999) :
    (yearText year).toList = padded 4 year.natAbs := by
  rw [yearText, if_pos h, String.toList_ofList]
  rfl

theorem cons_ne_padded {c : Char} {cs : List Char} {k n : Nat} (hc : c.isDigit = false) :
    c :: cs ≠ padded k n := by
  intro h
  have hdigit : c.isDigit = true := isDigit_of_mem_padded (h ▸ List.mem_cons_self)
  rw [hc] at hdigit
  cases hdigit

theorem isDigit_sign (year : Int) : (if year < 0 then '-' else '+').isDigit = false := by
  split <;> rfl

/-- A year is told by its text: a sign tells years of more than four digits from the others. -/
theorem yearText_injective : Function.Injective yearText := by
  intro a b h
  have h : (yearText a).toList = (yearText b).toList := congrArg _ h
  -- a year of four digits begins with a digit, any other one with a sign
  by_cases ha : 0 ≤ a ∧ a ≤ 9999
  · rw [toList_yearText_of_plain ha] at h
    by_cases hb : 0 ≤ b ∧ b ≤ 9999
    · rw [toList_yearText_of_plain hb] at h
      have := padded_injective h
      omega
    · rw [toList_yearText_of_not hb] at h
      exact absurd h.symm (cons_ne_padded (isDigit_sign b))
  · rw [toList_yearText_of_not ha] at h
    by_cases hb : 0 ≤ b ∧ b ≤ 9999
    · rw [toList_yearText_of_plain hb] at h
      exact absurd h (cons_ne_padded (isDigit_sign a))
    · rw [toList_yearText_of_not hb] at h
      obtain ⟨hsign, hdigits⟩ := List.cons.inj h
      have := padded_injective hdigits
      by_cases hneg : a < 0
      · rw [if_pos hneg] at hsign
        split at hsign
        · omega
        · cases hsign
      · rw [if_neg hneg] at hsign
        split at hsign
        · cases hsign
        · omega

/-! ### Texts -/

/-- The characters behind the year, of a date and a second of the day. -/
def afterYear (d : Date) (second : Nat) : List Char :=
  '-' :: (lastDigits 2 d.month ++ '-' :: (lastDigits 2 d.day ++ 'T' :: (lastDigits 2 (second / 3600)
    ++ ':' :: (lastDigits 2 (second / 60 % 60) ++ ':' :: (lastDigits 2 (second % 60) ++ ['Z'])))))

/-- The text of a point in time is its year and what stands behind the year. -/
theorem toList_text? {seconds : Int} {text : String} (h : text? seconds = some text) :
    text.toList = (yearText (Date.ofDays (seconds / 86400)).year).toList
      ++ afterYear (Date.ofDays (seconds / 86400)) (seconds % 86400).toNat := by
  obtain ⟨hmonth, hday⟩ := lt_of_exists? (Date.exists?_ofDays (seconds / 86400))
  rw [text?] at h
  split at h
  next =>
    rw [← Option.some.inj h]
    simp only [String.toList_append, toList_padTwo hmonth, toList_padTwo hday,
      toList_padTwo (show (seconds % 86400).toNat / 3600 < 100 by omega),
      toList_padTwo (show (seconds % 86400).toNat / 60 % 60 < 100 by omega),
      toList_padTwo (show (seconds % 86400).toNat % 60 < 100 by omega)]
    simp [afterYear]
  next => cases h

theorem length_lastDigits (k n : Nat) : (lastDigits k n).length = k := by
  induction k generalizing n with
  | zero => rfl
  | succ k ih => rw [lastDigits, List.length_append, ih, List.length_singleton]

theorem length_afterYear (d : Date) (second : Nat) : (afterYear d second).length = 16 := by
  simp [afterYear, length_lastDigits]

theorem lastDigits_two_injective {m n : Nat} (hm : m < 100) (hn : n < 100)
    (h : lastDigits 2 m = lastDigits 2 n) : m = n := by
  have hcodes := congrArg (List.map code) h
  rw [map_code_lastDigits_two, map_code_lastDigits_two] at hcodes
  obtain ⟨htens, hones⟩ := List.cons.inj hcodes
  have hread := twoDigits_eq hm
  rw [htens, (List.cons.inj hones).1, twoDigits_eq hn] at hread
  exact (Except.ok.inj hread).symm

/-- One number of two digits after the other. -/
theorem lastDigits_two_append_injective {m n : Nat} {c : Char} {cs ds : List Char} (hm : m < 100)
    (hn : n < 100) (h : lastDigits 2 m ++ c :: cs = lastDigits 2 n ++ c :: ds) :
    m = n ∧ cs = ds := by
  obtain ⟨hdigits, hrest⟩ := List.append_inj h
    ((length_lastDigits 2 m).trans (length_lastDigits 2 n).symm)
  exact ⟨lastDigits_two_injective hm hn hdigits, (List.cons.inj hrest).2⟩

/-- **Points in time with one text are equal.** -/
theorem text?_injective {a b : Int} {text : String} (ha : text? a = some text)
    (hb : text? b = some text) : a = b := by
  have h := (toList_text? ha).symm.trans (toList_text? hb)
  -- what comes after the year has one length, so that the texts part at the same place
  obtain ⟨hyear, hafter⟩ := List.append_inj' h
    ((length_afterYear _ _).trans (length_afterYear _ _).symm)
  obtain ⟨hmonth, hday⟩ := lt_of_exists? (Date.exists?_ofDays (a / 86400))
  obtain ⟨hmonth', hday'⟩ := lt_of_exists? (Date.exists?_ofDays (b / 86400))
  have hyear := yearText_injective (String.toList_inj.1 hyear)
  obtain ⟨hmonths, hafter⟩ :=
    lastDigits_two_append_injective hmonth hmonth' (List.cons.inj hafter).2
  obtain ⟨hdays, hafter⟩ := lastDigits_two_append_injective hday hday' hafter
  obtain ⟨hhours, hafter⟩ := lastDigits_two_append_injective (by omega) (by omega) hafter
  obtain ⟨hminutes, hafter⟩ := lastDigits_two_append_injective (by omega) (by omega) hafter
  obtain ⟨hseconds, -⟩ := lastDigits_two_append_injective (by omega) (by omega) hafter
  have hdate : Date.ofDays (a / 86400) = Date.ofDays (b / 86400) := by
    rcases hx : Date.ofDays (a / 86400) with ⟨y, m, d⟩
    rcases hy : Date.ofDays (b / 86400) with ⟨y', m', d'⟩
    rw [hx, hy] at hyear hmonths hdays
    cases hyear
    cases hmonths
    cases hdays
    rfl
  have hday : a / 86400 = b / 86400 := by
    rw [← Date.toDays_ofDays (a / 86400), hdate, Date.toDays_ofDays]
  omega

/-! ### What is read -/

/-- A text in the form of RFC 3339 begins with a digit, and a dash stands behind the fourth
character. -/
theorem exists_of_ofRfc3339 {text : String} {seconds : Int} (h : ofRfc3339 text = .ok seconds) :
    ∃ a b c d rest n, Utf8.encode text = a :: b :: c :: d :: code '-' :: rest
      ∧ digit a = .ok n := by
  rw [ofRfc3339] at h
  split at h
  next => cases h
  next =>
    obtain ⟨⟨day, rest⟩, hdate, -⟩ := bind_eq_ok_iff.1 h
    rw [date.eq_def] at hdate
    split at hdate
    next a b c d m e f m' g h rest heq =>
      obtain ⟨century, hcentury, hdate⟩ := bind_eq_ok_iff.1 hdate
      obtain ⟨year, -, hdate⟩ := bind_eq_ok_iff.1 hdate
      obtain ⟨_, hmark, -⟩ := bind_eq_ok_iff.1 hdate
      obtain ⟨n, hn, -⟩ := bind_eq_ok_iff.1 hcentury
      -- Only the date's first digit and its first hyphen matter to the lemmas below.
      have hm : m = code '-' := by
        rw [mark] at hmark
        split at hmark
        next heq => exact UInt8.toNat_inj.1 heq
        next => cases hmark
      exact ⟨a, b, c, d, _, n, hm ▸ heq, hn⟩
    next => cases hdate

theorem toNat_of_isDigit {c : Char} (h : c.isDigit = true) : 48 ≤ c.toNat ∧ c.toNat ≤ 57 := by
  have hval : 48 ≤ c.val ∧ c.val ≤ 57 := by simpa [Char.isDigit] using h
  exact ⟨UInt32.le_iff_toNat_le.1 hval.1, UInt32.le_iff_toNat_le.1 hval.2⟩

theorem code_ne_dash {c : Char} (h : c.isDigit = true) : code c ≠ code '-' := by
  intro hc
  obtain ⟨hle, hge⟩ := toNat_of_isDigit h
  have hcode : c.toNat % 256 = 45 := congrArg UInt8.toNat hc
  omega

/-- No integer is in the form of RFC 3339. -/
theorem ofRfc3339_ofInt_ne_ok (value seconds : Int) :
    ofRfc3339 (Decimal.ofInt value) ≠ .ok seconds := by
  intro h
  obtain ⟨b₀, b₁, b₂, b₃, rest, n, hdata, -⟩ := exists_of_ofRfc3339 h
  obtain ⟨c, cs, htext, hc, hcs⟩ := Decimal.exists_toList_ofInt value
  have hascii : ∀ d ∈ c :: cs, d.toNat < 128 := by
    refine List.forall_mem_cons.2 ⟨?_, fun d hd => ?_⟩
    · rcases hc with hc | rfl
      · exact Nat.lt_of_le_of_lt (toNat_of_isDigit hc).2 (by decide)
      · decide
    · exact Nat.lt_of_le_of_lt (toNat_of_isDigit (hcs d hd)).2 (by decide)
  rw [← String.ofList_toList (s := Decimal.ofInt value), htext,
    Utf8.encode_ofList_of_ascii hascii] at hdata
  -- behind the first character there are digits only
  have hdash : code '-' ∈ cs.map code := by
    rw [(List.cons.inj hdata).2]
    simp
  obtain ⟨d, hd, hcode⟩ := List.mem_map.1 hdash
  exact code_ne_dash (hcs d hd) hcode

/-- What the digits of an integer are read as, if anything, is that integer. -/
theorem eq_of_parse_ofInt {value seconds : Int} (h : parse (Decimal.ofInt value) = .ok seconds) :
    seconds = value := by
  rw [parse, Decimal.toInt64?_ofInt] at h
  split at h
  next s heq =>
    split at heq
    · rw [← Except.ok.inj h, ← Option.some.inj heq]
    · cases heq
  next => exact absurd h (ofRfc3339_ofInt_ne_ok value seconds)

/-- Texts of points in time are no integers. -/
theorem text?_ne_ofInt {seconds : Int} (value : Int) :
    text? seconds ≠ some (Decimal.ofInt value) := by
  intro h
  obtain ⟨c, cs, htext, hc, hcs⟩ := Decimal.exists_toList_ofInt value
  have hz : 'Z' ∈ c :: cs := by
    rw [← htext, toList_text? h]
    simp [afterYear]
  rcases List.mem_cons.1 hz with rfl | hz
  · rcases hc with hc | hc <;> cases hc
  · cases hcs _ hz

/-- A text with a sign in front and a dash somewhere behind it is neither an integer nor in the
form of RFC 3339. -/
theorem parse_ne_ok_of_sign {text : String} {c : Char} {cs : List Char} {seconds : Int}
    (htext : text.toList = c :: cs) (hc : c = '-' ∨ c = '+') (hdash : '-' ∈ cs) :
    parse text ≠ .ok seconds := by
  intro h
  have hnatural : Decimal.natural? cs = none := natural?_eq_none hdash rfl
  have hnone : Decimal.toInt64? text = none := by
    rcases hc with rfl | rfl <;> simp [Decimal.toInt64?, htext, hnatural]
  rw [parse, hnone] at h
  obtain ⟨b, _, _, _, _, n, hdata, hdigit⟩ := exists_of_ofRfc3339 h
  -- the first byte is the sign
  have hascii : c.toNat < 128 := by rcases hc with rfl | rfl <;> decide
  rw [Binary.encode_eq_flatMap, htext, List.flatMap_cons,
    Utf8.utf8EncodeChar_of_ascii hascii] at hdata
  obtain rfl := (List.cons.inj hdata).1
  rcases hc with rfl | rfl <;> cases hdigit

/-- The text of a year that is not of four digits is not read. -/
theorem parse_ne_ok_of_not_hasPlainYear {seconds s : Int} {text : String}
    (h : text? seconds = some text) (hyear : ¬HasPlainYear seconds) : parse text ≠ .ok s := by
  have htext := toList_text? h
  rw [toList_yearText_of_not hyear, List.cons_append] at htext
  refine parse_ne_ok_of_sign htext ?_ ?_
  · split
    · exact .inl rfl
    · exact .inr rfl
  · exact List.mem_append_right _ List.mem_cons_self

/-- **What the text of a point in time is read as**, if anything, is that point. -/
theorem eq_of_parse_text? {value seconds : Int} {text : String} (htext : text? value = some text)
    (h : parse text = .ok seconds) : seconds = value := by
  by_cases hyear : HasPlainYear value
  · rw [parse_of_text? htext hyear] at h
    exact (Except.ok.inj h).symm
  · exact absurd h (parse_ne_ok_of_not_hasPlainYear htext hyear)

/-- A text stands for a point in time: it is the one that is written for it, or its digits where
none is, or it is read as that point. -/
inductive StandsFor (text : String) (seconds : Int) : Prop
  | written (h : text? seconds = some text)
  | digits (h : text = Decimal.ofInt seconds)
  | read (h : parse text = .ok seconds)

/-- **A text stands for one point in time.** -/
theorem StandsFor.eq {text : String} {a b : Int} (ha : StandsFor text a) (hb : StandsFor text b) :
    a = b := by
  cases ha with
  | written ha =>
    cases hb with
    | written hb => exact text?_injective ha hb
    | digits hb => exact absurd ha (hb ▸ text?_ne_ofInt b)
    | read hb => exact (eq_of_parse_text? ha hb).symm
  | digits ha =>
    cases hb with
    | written hb => exact absurd hb (ha ▸ text?_ne_ofInt a)
    | digits hb => exact Decimal.ofInt_injective (ha.symm.trans hb)
    | read hb => exact (eq_of_parse_ofInt (ha ▸ hb)).symm
  | read ha =>
    cases hb with
    | written hb => exact eq_of_parse_text? hb ha
    | digits hb => exact eq_of_parse_ofInt (hb ▸ ha)
    | read hb => exact Except.ok.inj (ha.symm.trans hb)

end Micheline.Calendar.Timestamp
