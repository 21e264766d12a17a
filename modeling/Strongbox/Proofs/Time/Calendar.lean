import Strongbox.Time.Calendar

/-!
# Days and dates

Every day has one date, and the date names the day again.  A day of the 400-year cycle is
written in the manner of the calendar: centuries, groups of four years, years, and days of
a year that begins in March.
-/

set_option autoImplicit false

namespace Strongbox.Time

/-- A day of the 400-year cycle: the centuries, the groups of four years, the years and the
days in front of it. -/
structure CycleDay where
  centuries : Int
  fours : Int
  years : Int
  days : Int
  centuries_nonneg : 0 ≤ centuries
  centuries_le : centuries ≤ 3
  fours_nonneg : 0 ≤ fours
  fours_le : fours ≤ 24
  years_nonneg : 0 ≤ years
  years_le : years ≤ 3
  days_nonneg : 0 ≤ days
  /-- Only the last year of four has a leap day, and that of a century only in the last
  century. -/
  days_le : days ≤ 364 ∨ (days = 365 ∧ years = 3 ∧ (fours ≤ 23 ∨ centuries = 3))

namespace CycleDay

/-- The number of the day in the cycle. -/
def number (x : CycleDay) : Int :=
  36524 * x.centuries + 1461 * x.fours + 365 * x.years + x.days

/-- The number of the year in the cycle. -/
def year (x : CycleDay) : Int := 100 * x.centuries + 4 * x.fours + x.years

/-- Every day of a cycle of 400 years has its place among centuries, leap years and days. -/
theorem exists_number {n : Int} (h : 0 ≤ n) (hn : n < 146097) : ∃ x : CycleDay, x.number = n := by
  obtain ⟨q, m, hq, hq0, hq3, hm0, hm⟩ : ∃ q m : Int, n = 36524 * q + m ∧ 0 ≤ q ∧ q ≤ 3 ∧
      0 ≤ m ∧ (m < 36524 ∨ (q = 3 ∧ m = 36524)) := by
    by_cases hlast : n < 146096
    · exact ⟨n / 36524, n % 36524, by omega⟩
    · exact ⟨3, 36524, by omega⟩
  obtain ⟨r, u, hr, hr0, hr24, hu0, hu⟩ : ∃ r u : Int, m = 1461 * r + u ∧ 0 ≤ r ∧ r ≤ 24 ∧
      0 ≤ u ∧ u < 1461 :=
    ⟨m / 1461, m % 1461, by omega⟩
  obtain ⟨s, t, hs, hs0, hs3, ht0, ht⟩ : ∃ s t : Int, u = 365 * s + t ∧ 0 ≤ s ∧ s ≤ 3 ∧
      0 ≤ t ∧ (t < 365 ∨ (s = 3 ∧ t = 365)) := by
    by_cases hlast : u < 1460
    · exact ⟨u / 365, u % 365, by omega⟩
    · exact ⟨3, 365, by omega⟩
  refine ⟨⟨q, r, s, t, hq0, hq3, hr0, hr24, hs0, hs3, ht0, by omega⟩, ?_⟩
  unfold number
  dsimp only
  omega

/-- The correction by leap days finds the year of a day. -/
theorem year_eq (x : CycleDay) :
    (x.number - x.number / 1460 + x.number / 36524 - x.number / 146096) / 365 = x.year := by
  obtain ⟨q, r, s, t, hq0, hq3, hr0, hr24, hs0, hs3, ht0, ht⟩ := x
  unfold number year
  dsimp only
  generalize hn : 36524 * q + 1461 * r + 365 * s + t = n
  by_cases hlast : n = 146096
  · -- The last day of the cycle is the only one for which two corrections cancel.
    obtain rfl : q = 3 := by omega
    obtain rfl : r = 24 := by omega
    obtain rfl : s = 3 := by omega
    rw [hlast]
    decide
  · have hcentury : n / 36524 = q := by omega
    have hcycle : n / 146096 = 0 := by omega
    have hfour : (24 * q + r + 365 * s + t < 1460 ∧ n / 1460 = 25 * q + r) ∨
        (1460 ≤ 24 * q + r + 365 * s + t ∧ n / 1460 = 25 * q + r + 1) := by omega
    rw [hcentury, hcycle]
    rcases hfour with ⟨_, hfour⟩ | ⟨_, hfour⟩
    · rw [hfour]
      omega
    · rw [hfour]
      omega

/-- The days in front of the year of a day. -/
theorem days_eq (x : CycleDay) :
    x.number - (365 * x.year + x.year / 4 - x.year / 100) = x.days := by
  obtain ⟨q, r, s, t, hq0, hq3, hr0, hr24, hs0, hs3, ht0, ht⟩ := x
  unfold number year
  dsimp only
  have hfour : (100 * q + 4 * r + s) / 4 = 25 * q + r := by omega
  have hcentury : (100 * q + 4 * r + s) / 100 = q := by omega
  rw [hfour, hcentury]
  omega

/-- The number of the month of a day, counted from March. -/
def month (x : CycleDay) : Int := (5 * x.days + 2) / 153

/-- Months are counted from March on, from 0 to 11. -/
theorem month_bounds (x : CycleDay) : 0 ≤ x.month ∧ x.month ≤ 11 := by
  have hnonneg := x.days_nonneg
  have hle := x.days_le
  unfold month
  omega

end CycleDay

namespace Date

/-- The date of the day `x` of a 400-year cycle. -/
def ofCycle (cycle : Int) (x : CycleDay) : Date :=
  let month := if x.month < 10 then x.month + 3 else x.month - 9
  let year := x.year + cycle * 400
  ⟨if month ≤ 2 then year + 1 else year, month.toNat, (x.days - (153 * x.month + 2) / 5 + 1).toNat⟩

/-- Every day lies in a cycle, and its date is that of a day of the cycle. -/
theorem exists_ofDays_eq (days : Int) :
    ∃ cycle x, days + 719468 = cycle * 146097 + x.number ∧ ofDays days = ofCycle cycle x := by
  obtain ⟨x, hx⟩ := CycleDay.exists_number (n := (days + 719468) % 146097) (by omega) (by omega)
  refine ⟨(days + 719468) / 146097, x, by omega, ?_⟩
  unfold ofDays ofCycle CycleDay.month
  dsimp only
  rw [← hx, x.year_eq, x.days_eq]

/-- Up to December the year is the one in which its March lies. -/
theorem ofCycle_of_lt {x : CycleDay} (h : x.month < 10) (cycle : Int) :
    ofCycle cycle x = ⟨x.year + cycle * 400, (x.month + 3).toNat,
      (x.days - (153 * x.month + 2) / 5 + 1).toNat⟩ := by
  obtain ⟨hmonth, -⟩ := x.month_bounds
  unfold ofCycle
  dsimp only
  rw [if_pos h, if_neg (by omega)]

/-- January and February belong to the next year. -/
theorem ofCycle_of_le {x : CycleDay} (h : 10 ≤ x.month) (cycle : Int) :
    ofCycle cycle x = ⟨x.year + cycle * 400 + 1, (x.month - 9).toNat,
      (x.days - (153 * x.month + 2) / 5 + 1).toNat⟩ := by
  obtain ⟨-, hmonth⟩ := x.month_bounds
  unfold ofCycle
  dsimp only
  rw [if_neg (show ¬ x.month < 10 by omega), if_pos (by omega)]

/-- The number of a day is that of its place in its cycle. -/
theorem toDays_ofCycle (cycle : Int) (x : CycleDay) :
    (ofCycle cycle x).toDays = cycle * 146097 + x.number - 719468 := by
  have hdays := x.days_eq
  obtain ⟨hmonth, hmonth'⟩ := x.month_bounds
  have hyear : 0 ≤ x.year ∧ x.year < 400 := by
    obtain ⟨q, r, s, t, hq0, hq3, hr0, hr24, hs0, hs3, ht0, ht⟩ := x
    unfold CycleDay.year
    dsimp only
    omega
  have hday : 0 ≤ x.days - (153 * x.month + 2) / 5 := by
    have hnonneg := x.days_nonneg
    unfold CycleDay.month
    omega
  unfold toDays
  by_cases hearly : x.month < 10
  · rw [ofCycle_of_lt hearly]
    dsimp only
    rw [if_neg (by omega)]
    omega
  · rw [ofCycle_of_le (by omega)]
    dsimp only
    rw [if_pos (by omega)]
    omega

/-- The date of a day names that day. -/
theorem toDays_ofDays (days : Int) : (ofDays days).toDays = days := by
  obtain ⟨cycle, x, hdays, hdate⟩ := exists_ofDays_eq days
  rw [hdate, toDays_ofCycle]
  omega

/-- The first day that can be represented. -/
theorem minDays_eq : minDays = -96465292 := by decide

/-- The last one. -/
theorem maxDays_eq : maxDays = 95026236 := by decide

/-- The year of a representable day is representable. -/
theorem year_ofCycle {cycle : Int} {x : CycleDay}
    (hmin : minDays ≤ cycle * 146097 + x.number - 719468)
    (hmax : cycle * 146097 + x.number - 719468 ≤ maxDays) :
    minYear ≤ (ofCycle cycle x).year ∧ (ofCycle cycle x).year ≤ maxYear := by
  have hdays := x.days_eq
  have hnonneg := x.days_nonneg
  have hle := x.days_le
  have hyear : 0 ≤ x.year ∧ x.year < 400 := by
    obtain ⟨q, r, s, t, hq0, hq3, hr0, hr24, hs0, hs3, ht0, ht⟩ := x
    unfold CycleDay.year
    dsimp only
    omega
  rw [minDays_eq] at hmin
  rw [maxDays_eq] at hmax
  have hcycle : -656 ≤ cycle ∧ cycle ≤ 655 := by omega
  have hfirst : cycle = -656 → 256 ≤ x.year ∧ (x.year = 256 → 306 ≤ x.days) := by
    rintro rfl
    omega
  have hlast : cycle = 655 → x.year ≤ 142 ∧ (x.year = 142 → x.days ≤ 305) := by
    rintro rfl
    omega
  unfold minYear maxYear
  by_cases hearly : x.month < 10
  · rw [ofCycle_of_lt hearly]
    unfold CycleDay.month at hearly
    dsimp only
    omega
  · rw [ofCycle_of_le (by omega)]
    unfold CycleDay.month at hearly
    dsimp only
    omega

/-- A leap day ends a year that has one. -/
theorem isLeap_of_days {cycle : Int} {x : CycleDay} (h : x.days = 365) :
    isLeap (x.year + cycle * 400 + 1) = true := by
  obtain ⟨q, r, s, t, hq0, hq3, hr0, hr24, hs0, hs3, ht0, ht⟩ := x
  unfold isLeap CycleDay.year
  dsimp only at h ⊢
  simp only [Bool.and_eq_true, Bool.or_eq_true, beq_iff_eq, bne_iff_ne]
  omega

/-- The months of a year that begins in March, by their lengths. -/
theorem day_le (x : CycleDay) :
    x.days - (153 * x.month + 2) / 5 + 1 ≤
      if x.month = 1 ∨ x.month = 3 ∨ x.month = 6 ∨ x.month = 8 then 30 else 31 := by
  have hnonneg := x.days_nonneg
  have hle := x.days_le
  unfold CycleDay.month
  split <;> omega

/-- The date of a day is one of the calendar. -/
theorem day_ofCycle (cycle : Int) (x : CycleDay) :
    1 ≤ (ofCycle cycle x).month ∧ (ofCycle cycle x).month ≤ 12 ∧ 1 ≤ (ofCycle cycle x).day ∧
      (ofCycle cycle x).day ≤ daysInMonth (ofCycle cycle x).year (ofCycle cycle x).month := by
  obtain ⟨hmonth, hmonth'⟩ := x.month_bounds
  have hnonneg := x.days_nonneg
  have hday : 0 ≤ x.days - (153 * x.month + 2) / 5 := by
    unfold CycleDay.month
    omega
  by_cases hearly : x.month < 10
  · have hle := day_le x
    rw [ofCycle_of_lt hearly]
    refine ⟨by dsimp only; omega, by dsimp only; omega, by dsimp only; omega, ?_⟩
    unfold daysInMonth
    dsimp only
    rw [if_neg (by omega)]
    split at hle
    · rw [if_pos (by omega)]
      omega
    · rw [if_neg (by omega)]
      omega
  · rw [ofCycle_of_le (by omega)]
    refine ⟨by dsimp only; omega, by dsimp only; omega, by dsimp only; omega, ?_⟩
    unfold daysInMonth
    dsimp only
    by_cases hjanuary : x.month = 10
    · have hle := day_le x
      rw [if_neg (by omega)] at hle
      rw [if_neg (by omega), if_neg (by omega)]
      omega
    · rw [if_pos (by omega)]
      have hfebruary : x.month = 11 := by omega
      have hle := x.days_le
      rw [hfebruary]
      split
      · omega
      · rename_i hleap
        have hshort : x.days ≠ 365 := fun h => hleap (isLeap_of_days h)
        omega

/-- The date of a representable day can be represented. -/
theorem isValid_ofDays {days : Int} (hmin : minDays ≤ days) (hmax : days ≤ maxDays) :
    (ofDays days).isValid = true := by
  obtain ⟨cycle, x, hdays, hdate⟩ := exists_ofDays_eq days
  have hsame : days = cycle * 146097 + x.number - 719468 := by omega
  rw [hsame] at hmin hmax
  obtain ⟨hyear, hyear'⟩ := year_ofCycle hmin hmax
  obtain ⟨hmonth, hmonth', hday, hday'⟩ := day_ofCycle cycle x
  rw [hdate]
  unfold isValid
  simp only [Bool.and_eq_true, decide_eq_true_eq]
  exact ⟨⟨⟨⟨⟨hyear, hyear'⟩, hmonth⟩, hmonth'⟩, hday⟩, hday'⟩

end Date

end Strongbox.Time
