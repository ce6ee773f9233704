/-
Micheline/Proofs/Text/Decimal.lean

Integers are read back from their texts, in the grammar of literals (`Decimal.toInt?_ofInt`)
and in that of second counts, as far as they fit (`Decimal.toInt64?_ofInt`).  In both the
text is a sign and digits, and digits have the value that the library gives them
(`Nat.ofDigitChars`).  There is no blank in such a text (`Decimal.trimBlank_ofInt`).

The texts that are printed are known by their characters (`Decimal.isCanonical_iff`).
-/
import Mathlib.Data.List.Basic
import Mathlib.Data.Option.Basic
import Micheline.Proofs.Text.Blank
import Micheline.Text.Decimal

namespace Micheline

namespace Decimal

/-! ### Digits -/

theorem digit?_of_isDigit {c : Char} (h : c.isDigit = true) : digit? c = some (c.toNat - 48) := by
  rw [digit?, if_pos]
  · rfl
  · have hval : 48 ≤ c.val ∧ c.val ≤ 57 := by simpa [Char.isDigit] using h
    exact hval

/-- Reading digits one by one gives the number that they denote. -/
theorem digits?_eq {cs : List Char} (h : ∀ c ∈ cs, c.isDigit = true) (value : Nat) :
    digits? value cs = some (Nat.ofDigitChars 10 cs value) := by
  induction cs generalizing value with
  | nil => rw [digits?, Nat.ofDigitChars_nil]
  | cons c cs ih =>
    obtain ⟨hc, hcs⟩ := List.forall_mem_cons.1 h
    have hline : c ≠ '_' := by
      rintro rfl
      cases hc
    rw [digits?, if_neg hline, digit?_of_isDigit hc, Nat.ofDigitChars_cons, Nat.mul_comm 10 value]
    exact ih hcs _

theorem foldlM_digit?_eq {cs : List Char} (h : ∀ c ∈ cs, c.isDigit = true) (value : Nat) :
    cs.foldlM (fun value c => (digit? c).map (value * 10 + ·)) value
      = some (Nat.ofDigitChars 10 cs value) := by
  induction cs generalizing value with
  | nil =>
    rw [Nat.ofDigitChars_nil]
    rfl
  | cons c cs ih =>
    obtain ⟨hc, hcs⟩ := List.forall_mem_cons.1 h
    rw [List.foldlM_cons, digit?_of_isDigit hc, Nat.ofDigitChars_cons, Nat.mul_comm 10 value]
    exact ih hcs _

/-! ### Natural numbers -/

theorem isDigit_of_mem_ofNat {n : Nat} : ∀ c ∈ (ofNat n).toList, c.isDigit = true := by
  intro c hc
  rw [ofNat, Nat.toList_repr] at hc
  exact Nat.isDigit_of_mem_toDigits (by decide) (by decide) hc

/-- A number begins with a digit. -/
theorem exists_toList_ofNat (n : Nat) : ∃ c cs, (ofNat n).toList = c :: cs ∧ c.isDigit = true := by
  have hdigits := isDigit_of_mem_ofNat (n := n)
  rcases h : (ofNat n).toList with - | ⟨c, cs⟩
  · exact absurd (String.toList_eq_nil_iff.1 h) Nat.repr_ne_empty
  · rw [h] at hdigits
    exact ⟨c, cs, rfl, hdigits c List.mem_cons_self⟩

theorem ofDigitChars_toList_ofNat (n : Nat) : Nat.ofDigitChars 10 (ofNat n).toList 0 = n := by
  rw [ofNat, Nat.toList_repr, Nat.ofDigitChars_ten_toDigits]

theorem natural?_toList_ofNat (n : Nat) : natural? (ofNat n).toList = some n := by
  obtain ⟨c, cs, h, -⟩ := exists_toList_ofNat n
  rw [natural?, foldlM_digit?_eq isDigit_of_mem_ofNat, ofDigitChars_toList_ofNat, h]
  rfl

/-- A written number is read again where a sign is allowed in front. -/
theorem magnitude?_toList_ofNat (n : Nat) : magnitude? (ofNat n).toList = some n := by
  obtain ⟨c, cs, h, hc⟩ := exists_toList_ofNat n
  have hdigits := digits?_eq (isDigit_of_mem_ofNat (n := n)) 0
  have hline : c ≠ '_' := by
    rintro rfl
    cases hc
  rw [ofDigitChars_toList_ofNat, h, digits?, if_neg hline, Nat.zero_mul] at hdigits
  rw [h, magnitude?]
  · simpa using hdigits
  all_goals
    rintro rest ⟨⟩
    cases hc

/-! ### Integers -/

/-- The text of an integer is that of a natural number, with a minus in front if need be. -/
theorem toList_ofInt (value : Int) :
    (∃ n : Nat, value = n ∧ (ofInt value).toList = (ofNat n).toList)
      ∨ ∃ n : Nat, value = -(n : Int) ∧ (ofInt value).toList = '-' :: (ofNat n).toList := by
  cases value with
  | ofNat n => exact .inl ⟨n, rfl, rfl⟩
  | negSucc n =>
    refine .inr ⟨n + 1, rfl, ?_⟩
    rw [ofInt, String.toList_append]
    rfl

/-- The characters of an integer are digits but for the sign. -/
theorem exists_toList_ofInt (value : Int) :
    ∃ c cs, (ofInt value).toList = c :: cs ∧ (c.isDigit = true ∨ c = '-')
      ∧ ∀ d ∈ cs, d.isDigit = true := by
  rcases toList_ofInt value with ⟨n, -, h⟩ | ⟨n, -, h⟩
  · obtain ⟨c, cs, hcs, hc⟩ := exists_toList_ofNat n
    have hdigits := isDigit_of_mem_ofNat (n := n)
    rw [hcs] at h hdigits
    exact ⟨c, cs, h, .inl hc, (List.forall_mem_cons.1 hdigits).2⟩
  · exact ⟨'-', _, h, .inr rfl, isDigit_of_mem_ofNat⟩

/-- **An integer is read back from its text.** -/
theorem toInt?_ofInt (value : Int) : toInt? (ofInt value) = some value := by
  rcases toList_ofInt value with ⟨n, rfl, h⟩ | ⟨n, rfl, h⟩
  · obtain ⟨c, cs, hcs, hc⟩ := exists_toList_ofNat n
    -- A number's text begins with a digit, so the sign read is the sign written.
    have hminus : c ≠ '-' := by
      rintro rfl
      cases hc
    have hn := magnitude?_toList_ofNat n
    rw [toInt?, h]
    rw [hcs] at hn ⊢
    split
    next he => exact absurd (List.cons.inj he).1 hminus
    next he => exact absurd (List.cons.inj he).1 hminus
    next => rw [hn]; rfl
  · obtain ⟨c, cs, hcs, hc⟩ := exists_toList_ofNat n
    have hplus : c ≠ '+' := by
      rintro rfl
      cases hc
    have hn := magnitude?_toList_ofNat n
    rw [toInt?, h]
    rw [hcs] at hn ⊢
    split
    next he => exact absurd (List.cons.inj (List.cons.inj he).2).1 hplus
    next he =>
      rw [← (List.cons.inj he).2, hn]
      rfl
    next he => exact absurd rfl (he _)

theorem isBlank_of_isDigit {c : Char} (h : c.isDigit = true) : isBlank c = false := by
  have hval : 48 ≤ c.val ∧ c.val ≤ 57 := by simpa [Char.isDigit] using h
  have hnat : 48 ≤ c.toNat ∧ c.toNat ≤ 57 := hval
  simp only [isBlank, Bool.or_eq_false_iff, Bool.and_eq_false_iff, decide_eq_false_iff_not,
    beq_eq_false_iff_ne]
  omega

/-- There are no blanks in the text of an integer. -/
theorem trimBlank_ofInt (value : Int) : trimBlank (ofInt value) = ofInt value := by
  obtain ⟨c, cs, h, hc, hcs⟩ := exists_toList_ofInt value
  apply trimBlank_of_forall
  rw [h]
  refine List.forall_mem_cons.2 ⟨?_, fun d hd => isBlank_of_isDigit (hcs d hd)⟩
  rcases hc with hc | rfl
  · exact isBlank_of_isDigit hc
  · decide

theorem ofInt_injective : Function.Injective ofInt := by
  intro a b h
  have ha := toInt?_ofInt a
  rw [h, toInt?_ofInt] at ha
  exact (Option.some.inj ha).symm

/-! ### Canonical texts -/

/-- Whether these are the digits of a natural number as it is printed: no zero leads, unless it
stands alone. -/
def isNatural : List Char → Bool
  | [] => false
  | ['0'] => true
  | c :: cs => c != '0' && (c :: cs).all Char.isDigit

/-- Whether a text is that of an integer as it is printed: a minus stands only before a number
that is not zero. -/
def isCanonical (text : String) : Bool :=
  match text.toList with
  | '-' :: cs => isNatural cs && cs != ['0']
  | cs => isNatural cs

theorem isNatural_cons {c : Char} (h : c ≠ '0') (cs : List Char) :
    isNatural (c :: cs) = (c :: cs).all Char.isDigit := by
  rw [isNatural, bne_iff_ne.2 h, Bool.true_and]
  exact fun hc => absurd hc h

theorem exists_digitChar {c : Char} (h : c.isDigit = true) : ∃ d < 10, d.digitChar = c := by
  have hval : 48 ≤ c.val ∧ c.val ≤ 57 := by simpa [Char.isDigit] using h
  have hnat : 48 ≤ c.toNat ∧ c.toNat ≤ 57 := hval
  refine ⟨c.toNat - 48, by omega, Char.toNat_inj.1 ?_⟩
  rw [Nat.toNat_digitChar_of_lt_ten (by omega)]
  omega

/-- Only zero begins with a zero. -/
theorem head?_toDigits_ne {n : Nat} (hn : n ≠ 0) : (Nat.toDigits 10 n).head? ≠ some '0' := by
  induction n using Nat.strongRecOn with
  | ind n ih =>
    rw [Nat.toDigits_eq_if (by decide)]
    split
    next => simpa using hn
    next hlarge =>
      rw [List.head?_append_of_ne_nil _ Nat.toDigits_ne_nil]
      exact ih (n / 10) (by omega) (by omega)

/-- Digits after those of a number that is not zero. -/
theorem toDigits_ofDigitChars {cs : List Char} (h : ∀ c ∈ cs, c.isDigit = true) {n : Nat}
    (hn : 0 < n) : Nat.toDigits 10 (Nat.ofDigitChars 10 cs n) = Nat.toDigits 10 n ++ cs := by
  induction cs generalizing n with
  | nil => rw [Nat.ofDigitChars_nil, List.append_nil]
  | cons c cs ih =>
    obtain ⟨hc, hcs⟩ := List.forall_mem_cons.1 h
    obtain ⟨d, hd, rfl⟩ := exists_digitChar hc
    rw [Nat.ofDigitChars_cons_digitChar_of_lt_ten hd, ih hcs (by omega),
      ← Nat.toDigits_append_toDigits (by decide) hn hd, Nat.toDigits_of_lt_base hd,
      List.append_assoc, List.singleton_append]

/-- A number is written without zeros in front. -/
theorem isNatural_toDigits (n : Nat) : isNatural (Nat.toDigits 10 n) = true := by
  by_cases hn : n = 0
  · rw [hn]
    rfl
  · have hhead := head?_toDigits_ne hn
    have hdigits : (Nat.toDigits 10 n).all Char.isDigit = true :=
      List.all_eq_true.2 fun c => Nat.isDigit_of_mem_toDigits (by decide) (by decide)
    rcases hcs : Nat.toDigits 10 n with - | ⟨c, cs⟩
    · exact absurd hcs Nat.toDigits_ne_nil
    · rw [hcs] at hhead hdigits
      rw [isNatural_cons fun hc => hhead (congrArg some hc), hdigits]

/-- Canonical digits are those of a number. -/
theorem exists_toDigits {cs : List Char} (h : isNatural cs = true) :
    ∃ n, Nat.toDigits 10 n = cs := by
  match cs with
  | [] => cases h
  | c :: cs =>
    by_cases hc : c = '0'
    · obtain rfl : cs = [] := by
        cases cs with
        | nil => rfl
        | cons => simp [isNatural, hc] at h
      exact ⟨0, by rw [hc]; rfl⟩
    · rw [isNatural_cons hc, List.all_eq_true] at h
      obtain ⟨hfirst, hcs⟩ := List.forall_mem_cons.1 h
      obtain ⟨d, hd, rfl⟩ := exists_digitChar hfirst
      have hpos : 0 < d := Nat.pos_of_ne_zero fun hd => hc (Nat.digitChar_eq_zero.2 hd)
      refine ⟨Nat.ofDigitChars 10 cs d, ?_⟩
      rw [toDigits_ofDigitChars hcs hpos, Nat.toDigits_of_lt_base hd, List.singleton_append]

theorem toList_ofInt_negSucc (n : Nat) :
    (ofInt (.negSucc n)).toList = '-' :: Nat.toDigits 10 (n + 1) := by
  rw [ofInt, String.toList_append, ofNat, Nat.toList_repr]
  rfl

/-- **The texts that integers are printed as.** -/
theorem isCanonical_iff {text : String} :
    isCanonical text = true ↔ ∃ value, ofInt value = text := by
  constructor
  · intro h
    rw [isCanonical] at h
    split at h
    next cs hcs =>
      rw [Bool.and_eq_true, bne_iff_ne] at h
      obtain ⟨n, rfl⟩ := exists_toDigits h.1
      cases n with
      | zero => exact absurd rfl h.2
      | succ n => exact ⟨.negSucc n, String.toList_inj.1 (by rw [toList_ofInt_negSucc, hcs])⟩
    next =>
      obtain ⟨n, hn⟩ := exists_toDigits h
      exact ⟨.ofNat n, String.toList_inj.1 (by rw [← hn, ofInt, ofNat, Nat.toList_repr])⟩
  · rintro ⟨value, rfl⟩
    cases value with
    | ofNat n =>
      obtain ⟨c, cs, hcs, hc⟩ := exists_toList_ofNat n
      rw [isCanonical]
      split
      next hminus =>
        rw [ofInt, hcs] at hminus
        obtain ⟨rfl, -⟩ := List.cons.inj hminus
        cases hc
      next =>
        rw [ofInt, ofNat, Nat.toList_repr]
        exact isNatural_toDigits n
    | negSucc n =>
      rw [isCanonical, toList_ofInt_negSucc]
      simp only [isNatural_toDigits, Bool.true_and, bne_iff_ne]
      intro hzero
      exact head?_toDigits_ne n.succ_ne_zero (by rw [hzero]; rfl)

/-- **An integer is read back from its text if it fits.** -/
theorem toInt64?_ofInt (value : Int) :
    toInt64? (ofInt value) = if isInt64 value then some value else none := by
  have hread : toInt64? (ofInt value) = (do
      let value ← some value
      guard (isInt64 value)
      return value) := by
    rcases toList_ofInt value with ⟨n, rfl, h⟩ | ⟨n, rfl, h⟩
    · obtain ⟨c, cs, hcs, hc⟩ := exists_toList_ofNat n
      have hn := natural?_toList_ofNat n
      rw [toInt64?, h]
      rw [hcs] at hn ⊢
      split
      next he =>
        obtain ⟨rfl, -⟩ := List.cons.inj he
        cases hc
      next he =>
        obtain ⟨rfl, -⟩ := List.cons.inj he
        cases hc
      next => rw [hn]; rfl
    · have hn := natural?_toList_ofNat n
      rw [toInt64?, h]
      split
      next he =>
        rw [← (List.cons.inj he).2, hn]
        rfl
      next he => exact absurd (List.cons.inj he).1 (by decide)
      next he _ => exact absurd rfl (he _)
  rw [hread]
  show ((if isInt64 value then some () else none) >>= fun _ => some value) = _
  split <;> rfl

end Decimal

end Micheline
