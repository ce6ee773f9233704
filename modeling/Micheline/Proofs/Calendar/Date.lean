/-
Micheline/Proofs/Calendar/Date.lean

Dates and their numbers of days determine each other as far as dates exist: the date of a
number of days exists (`Date.exists?_ofDays`) and has this number (`Date.toDays_ofDays`).

A day of an era of four hundred years is found as a century, four years in it, one of these
and a day (`DayOfEra`).  The years start in March, so that whatever is short of a day is at
an end: the last of four years has a day more, and of four centuries only the last one has
as many four years as it could.
-/
import Micheline.Calendar.Date

namespace Micheline.Calendar

/-! ### Days of an era -/

/-- A day of an era: the century, the four years, the year and the day. -/
structure DayOfEra (c q y d : Int) : Prop where
  century : 0 ≤ c ∧ c ≤ 3
  fourYears : 0 ≤ q ∧ q ≤ 24
  year : 0 ≤ y ∧ y ≤ 3
  day : 0 ≤ d ∧ d ≤ 365
  leap : d = 365 → y = 3 ∧ (q < 24 ∨ c = 3)

/-- The number of a day of an era. -/
def dayOfEra (c q y d : Int) : Int :=
  36524 * c + 1461 * q + 365 * y + d

/-- Every day of an era has a century, a group of four years, a year and a day in it. -/
theorem exists_dayOfEra {n : Int} (h0 : 0 ≤ n) (h1 : n < 146097) :
    ∃ c q y d, DayOfEra c q y d ∧ n = dayOfEra c q y d := by
  obtain ⟨c, r, hc, hr, hlast, rfl⟩ : ∃ c r : Int, (0 ≤ c ∧ c ≤ 3) ∧ (0 ≤ r ∧ r ≤ 36524)
      ∧ (r = 36524 → c = 3) ∧ n = 36524 * c + r :=
    ⟨min (n / 36524) 3, n - 36524 * min (n / 36524) 3, by omega⟩
  obtain ⟨q, s, hq, hs, rfl⟩ : ∃ q s : Int, (0 ≤ q ∧ q ≤ 24) ∧ (0 ≤ s ∧ s ≤ 1460)
      ∧ r = 1461 * q + s :=
    ⟨r / 1461, r % 1461, by omega⟩
  obtain ⟨y, d, hy, hd, hleap, rfl⟩ : ∃ y d : Int, (0 ≤ y ∧ y ≤ 3) ∧ (0 ≤ d ∧ d ≤ 365)
      ∧ (d = 365 → y = 3) ∧ s = 365 * y + d :=
    ⟨min (s / 365) 3, s - 365 * min (s / 365) 3, by omega⟩
  refine ⟨c, q, y, d, ⟨hc, hq, hy, hd, by omega⟩, ?_⟩
  rw [dayOfEra]
  omega

namespace DayOfEra

variable {c q y d : Int}

/-- The first and the last term but one count the centuries: only the last day of an era
would be one of a fifth century. -/
theorem div_centuries (h : DayOfEra c q y d) :
    dayOfEra c q y d / 36524 - dayOfEra c q y d / 146096 = c := by
  obtain ⟨hc, hq, hy, hd, hleap⟩ := h
  obtain ⟨r, hr⟩ : ∃ r, r = 1461 * q + 365 * y + d := ⟨_, rfl⟩
  have hlast : r ≤ 36523 ∨ (r = 36524 ∧ c = 3) := by omega
  have hpos : 0 ≤ r := by omega
  have hn : dayOfEra c q y d = 36524 * c + r := by
    rw [dayOfEra]
    omega
  rw [hn]
  clear hn hr
  omega

/-- **The year of an era**, as it is computed. -/
theorem yearOfEra_eq (h : DayOfEra c q y d) :
    (dayOfEra c q y d - dayOfEra c q y d / 1460 + dayOfEra c q y d / 36524
      - dayOfEra c q y d / 146096) / 365 = 100 * c + 4 * q + y := by
  have hcenturies := h.div_centuries
  obtain ⟨hc, hq, hy, hd, hleap⟩ := h
  have hfour : dayOfEra c q y d / 1460 = 25 * c + q
      ∨ (dayOfEra c q y d / 1460 = 25 * c + q + 1 ∧ y = 3 ∧ 1 ≤ d) := by
    rw [dayOfEra]
    omega
  have hlast : d = 365 → dayOfEra c q y d / 1460 = 25 * c + q + 1 := by
    rw [dayOfEra]
    omega
  generalize dayOfEra c q y d / 1460 = e at *
  generalize dayOfEra c q y d / 36524 = f at *
  generalize dayOfEra c q y d / 146096 = g at *
  rw [dayOfEra]
  omega

/-- The days of the years before. -/
theorem dayOfYear_eq (h : DayOfEra c q y d) :
    dayOfEra c q y d - (365 * (100 * c + 4 * q + y) + (100 * c + 4 * q + y) / 4
      - (100 * c + 4 * q + y) / 100) = d := by
  obtain ⟨hc, hq, hy, hd, hleap⟩ := h
  have hfour : (100 * c + 4 * q + y) / 4 = 25 * c + q := by omega
  have hcentury : (100 * c + 4 * q + y) / 100 = c := by omega
  rw [hfour, hcentury, dayOfEra]
  omega

end DayOfEra

/-! ### Dates -/

namespace Date

/-- The date of a day of an era, and of a month that is counted from March on. -/
def ofEra (era c q y d m : Int) : Date :=
  let year := 100 * c + 4 * q + y + era * 400
  let month := if m < 10 then m + 3 else m - 9
  ⟨if month ≤ 2 then year + 1 else year, month.toNat, (d - (153 * m + 2) / 5 + 1).toNat⟩

/-- A number of days is a day of an era, and its date is counted from there. -/
theorem ofDays_eq_ofEra (days : Int) :
    ∃ c q y d, DayOfEra c q y d
      ∧ days + 719468 = (days + 719468) / 146097 * 146097 + dayOfEra c q y d
      ∧ ofDays days = ofEra ((days + 719468) / 146097) c q y d ((5 * d + 2) / 153) := by
  obtain ⟨c, q, y, d, h, hn⟩ := exists_dayOfEra
    (Int.emod_nonneg (days + 719468) (by decide : (146097 : Int) ≠ 0))
    (Int.emod_lt_of_pos (days + 719468) (by decide))
  refine ⟨c, q, y, d, h, ?_, ?_⟩
  · rw [← hn]
    omega
  · simp only [ofDays, ofEra, hn, h.yearOfEra_eq, h.dayOfYear_eq]

section

variable {era c q y d : Int}

/-- The date of a day of an era has the number of days that the day has. -/
theorem toDays_ofEra (h : DayOfEra c q y d) :
    (ofEra era c q y d ((5 * d + 2) / 153)).toDays = era * 146097 + dayOfEra c q y d - 719468 := by
  obtain ⟨m, hm⟩ : ∃ m, m = (5 * d + 2) / 153 := ⟨_, rfl⟩
  have hd := h.day
  have hmonth : 0 ≤ m ∧ m ≤ 11 := by omega
  have hday : 1 ≤ d - (153 * m + 2) / 5 + 1 := by omega
  obtain ⟨year, hyear⟩ : ∃ year, year = 100 * c + 4 * q + y + era * 400 := ⟨_, rfl⟩
  -- the year is told by the month, which is counted from March on again
  have hback : ∀ month : Int, month = (if m < 10 then m + 3 else m - 9) →
      (if month.toNat ≤ 2 then (if month ≤ 2 then year + 1 else year) - 1
        else if month ≤ 2 then year + 1 else year) = year
      ∧ ((month.toNat : Int) + 9) % 12 = m := by
    intro month hmonth'
    constructor
    · split
      · omega
      · omega
    · omega
  obtain ⟨hyear', hmonth'⟩ := hback _ rfl
  have hera : year / 400 = era ∧ year % 400 = 100 * c + 4 * q + y := by
    obtain ⟨hc, hq, hy, -, -⟩ := h
    omega
  rw [← hm]
  simp only [toDays, ofEra, ← hyear, hyear', hmonth', hera.1, hera.2]
  have hdays := h.dayOfYear_eq
  omega

/-- A year that has a last day of February has a leap day. -/
theorem isLeapYear_of_last (era : Int) (h : DayOfEra c q y d) (hd : d = 365) :
    isLeapYear (100 * c + 4 * q + y + era * 400 + 1) = true := by
  obtain ⟨hc, hq, hy, -, hleap⟩ := h
  obtain ⟨rfl, hq'⟩ := hleap hd
  have hfour : (100 * c + 4 * q + 3 + era * 400 + 1) % 4 = 0 := by omega
  have hcentury : (100 * c + 4 * q + 3 + era * 400 + 1) % 100 ≠ 0
      ∨ (100 * c + 4 * q + 3 + era * 400 + 1) % 400 = 0 := by omega
  simpa [isLeapYear, hfour] using hcentury

/-- The date of a day of an era exists. -/
theorem exists?_ofEra (h : DayOfEra c q y d) :
    (ofEra era c q y d ((5 * d + 2) / 153)).exists? = true := by
  obtain ⟨m, hm⟩ : ∃ m, m = (5 * d + 2) / 153 := ⟨_, rfl⟩
  obtain ⟨month, hmonth⟩ : ∃ month, month = if m < 10 then m + 3 else m - 9 := ⟨_, rfl⟩
  obtain ⟨day, hday⟩ : ∃ day, day = d - (153 * m + 2) / 5 + 1 := ⟨_, rfl⟩
  have hd := h.day
  have hm' : 0 ≤ m ∧ m ≤ 11 := by omega
  have hcount : month = m + 3 ∧ m < 10 ∨ month = m - 9 ∧ 10 ≤ m := by
    split at hmonth
    · exact .inl ⟨hmonth, by omega⟩
    · exact .inr ⟨hmonth, by omega⟩
  -- the days of each month are those that its number leaves
  have hlong : 1 ≤ day ∧ day ≤ 31 := by omega
  have hshort : month = 4 ∨ month = 6 ∨ month = 9 ∨ month = 11 → day ≤ 30 := by omega
  have hfebruary : month = 2 → day ≤ 29 ∧ (day = 29 → d = 365) := by omega
  have hleap : d = 365 → isLeapYear (100 * c + 4 * q + y + era * 400 + 1) = true :=
    isLeapYear_of_last era h
  simp only [ofEra, ← hm, ← hmonth, ← hday, exists?, monthLength, Bool.and_eq_true,
    decide_eq_true_eq]
  clear hmonth hday hm
  refine ⟨⟨⟨by omega, by omega⟩, by omega⟩, ?_⟩
  split
  next htwo =>
    rw [if_pos (show month ≤ 2 by omega)]
    split
    next => omega
    next hnot =>
      have hlast : d ≠ 365 := fun hlast => hnot (hleap hlast)
      omega
  next => split <;> omega

end

/-- **The date of a number of days has this number.** -/
theorem toDays_ofDays (days : Int) : (ofDays days).toDays = days := by
  obtain ⟨c, q, y, d, h, hn, hdate⟩ := ofDays_eq_ofEra days
  rw [hdate, toDays_ofEra h]
  omega

/-- **The date of a number of days exists.** -/
theorem exists?_ofDays (days : Int) : (ofDays days).exists? = true := by
  obtain ⟨c, q, y, d, h, -, hdate⟩ := ofDays_eq_ofEra days
  rw [hdate]
  exact exists?_ofEra h

end Date

end Micheline.Calendar
