import Mathlib

/-!
The proleptic Gregorian calendar on day numbers: day `0` is January 1 of year 1, and a day
number of any sign has a year, a month `1..12` and a day of the month. `civil` reads a day
number, `dayNumber` writes one, normalizing a month outside `1..12` into the year as a
calendar library's date constructor does; the two are inverse on valid dates. The year is found
from an estimate over the 400-year cycle of 146097 days and a correction by one.
-/

namespace Civil

def isLeap (y : Int) : Bool := y % 4 = 0 && (y % 100 ≠ 0 || y % 400 = 0)

/-- February 29 of a leap year. -/
def leapDays (y : Int) : Int := if isLeap y then 1 else 0

/-- The days from January 1 of year 1 to January 1 of year `y`. -/
def daysBefore (y : Int) : Int := 365 * (y - 1) + (y - 1) / 4 - (y - 1) / 100 + (y - 1) / 400

def daysInYear (y : Int) : Int := 365 + leapDays y

/-- The days of year `y` before the first of month `m`, for `1 ≤ m ≤ 12`: from March on, the
months from March have the lengths 31, 30, 31, 30, 31 twice over and then 31, which
`(153 * k + 2) / 5` counts. -/
def cumDays (y m : Int) : Int :=
  if m ≤ 2 then 31 * (m - 1) else 59 + leapDays y + (153 * (m - 3) + 2) / 5

/-- The days of month `m` of year `y`. -/
def daysIn (y m : Int) : Int :=
  if m = 2 then 28 + leapDays y
  else if m = 1 then 31 else (153 * (m - 2) + 2) / 5 - (153 * (m - 3) + 2) / 5

example : [1, 2, 3, 4, 5, 6, 7, 8, 9, 10, 11, 12].map (cumDays 2001) =
    [0, 31, 59, 90, 120, 151, 181, 212, 243, 273, 304, 334] := by decide

example : [1, 2, 3, 4, 5, 6, 7, 8, 9, 10, 11, 12].map (daysIn 2000) =
    [31, 29, 31, 30, 31, 30, 31, 31, 30, 31, 30, 31] := by decide

def firstOfMonth (y m : Int) : Int := daysBefore y + cumDays y m

/-- The year of a day number. -/
def yearOf (D : Int) : Int :=
  let y₀ := 400 * D / 146097 + 1
  if D < daysBefore y₀ then y₀ - 1 else if D < daysBefore (y₀ + 1) then y₀ else y₀ + 1

/-- The month of the day `doy` of year `y`, counted from `0`. -/
def monthOf (y doy : Int) : Int :=
  let l := leapDays y
  if doy < 31 then 1 else if doy < 59 + l then 2 else (5 * (doy - 59 - l) + 2) / 153 + 3

/-- The year, month and day of a day number. -/
def civil (D : Int) : Int × Int × Int :=
  let y := yearOf D
  let doy := D - daysBefore y
  let m := monthOf y doy
  (y, m, doy - cumDays y m + 1)

/-- The day number of a date whose month may lie outside `1..12` and whose day may lie outside
the month: the month is brought into the year, and the day counted from the first. -/
def dayNumber (y m d : Int) : Int :=
  firstOfMonth (y + (m - 1) / 12) ((m - 1) % 12 + 1) + d - 1

/-- Day `0` is a Monday; Sunday is `0`. -/
def weekday (D : Int) : Int := (D + 1) % 7

/-! ### Years -/

theorem leapDays_cases (y : Int) : leapDays y = 0 ∨ leapDays y = 1 := by
  unfold leapDays
  split
  · exact .inr rfl
  · exact .inl rfl

theorem daysBefore_succ (y : Int) : daysBefore (y + 1) = daysBefore y + daysInYear y := by
  unfold daysBefore daysInYear leapDays isLeap
  split <;> simp_all <;> omega

theorem yearOf_spec (D : Int) : daysBefore (yearOf D) ≤ D ∧ D < daysBefore (yearOf D + 1) := by
  have hlo : daysBefore (400 * D / 146097 + 1 - 1) ≤ D := by unfold daysBefore; omega
  have hhi : D < daysBefore (400 * D / 146097 + 1 + 1 + 1) := by unfold daysBefore; omega
  unfold yearOf
  dsimp only
  split_ifs with h1 h2
  · exact ⟨hlo, by rw [Int.sub_add_cancel]; exact h1⟩
  · exact ⟨by omega, h2⟩
  · exact ⟨by omega, hhi⟩

theorem daysBefore_le_of_le {y y' : Int} (h : y ≤ y') : daysBefore y ≤ daysBefore y' := by
  unfold daysBefore
  omega

theorem yearOf_eq {y D : Int} (hlo : daysBefore y ≤ D) (hhi : D < daysBefore (y + 1)) :
    yearOf D = y := by
  obtain ⟨h1, h2⟩ := yearOf_spec D
  by_contra hne
  rcases Int.lt_or_gt_of_ne hne with hlt | hgt
  · have := daysBefore_le_of_le (show yearOf D + 1 ≤ y by omega)
    omega
  · have := daysBefore_le_of_le (show y + 1 ≤ yearOf D by omega)
    omega

/-! ### Months -/

theorem cumDays_succ (y : Int) {m : Int} (h1 : 1 ≤ m) (h11 : m ≤ 11) :
    cumDays y (m + 1) = cumDays y m + daysIn y m := by
  unfold cumDays daysIn
  split_ifs <;> omega

theorem cumDays_add_daysIn_le (y : Int) {m : Int} (h1 : 1 ≤ m) (h12 : m ≤ 12) :
    cumDays y m + daysIn y m ≤ daysInYear y := by
  have := leapDays_cases y
  unfold cumDays daysIn daysInYear
  split_ifs <;> omega

theorem cumDays_nonneg (y : Int) {m : Int} (h1 : 1 ≤ m) : 0 ≤ cumDays y m := by
  have := leapDays_cases y
  unfold cumDays
  split_ifs <;> omega

theorem one_le_daysIn (y m : Int) : 1 ≤ daysIn y m := by
  have := leapDays_cases y
  unfold daysIn
  split_ifs <;> omega

theorem monthOf_spec (y : Int) {doy : Int} (h0 : 0 ≤ doy) (hlt : doy < daysInYear y) :
    1 ≤ monthOf y doy ∧ monthOf y doy ≤ 12 ∧ cumDays y (monthOf y doy) ≤ doy ∧
      doy < cumDays y (monthOf y doy) + daysIn y (monthOf y doy) := by
  have := leapDays_cases y
  unfold daysInYear at hlt
  unfold monthOf cumDays daysIn
  dsimp only
  split_ifs <;> omega

theorem monthOf_eq (y : Int) {m doy : Int} (h1 : 1 ≤ m) (h12 : m ≤ 12) (hlo : cumDays y m ≤ doy)
    (hhi : doy < cumDays y m + daysIn y m) : monthOf y doy = m := by
  have := leapDays_cases y
  unfold cumDays daysIn at *
  unfold monthOf
  dsimp only
  split_ifs at * <;> omega

/-! ### Dates -/

/-- A valid date: a month of the year, and a day of the month. -/
def Valid (y m d : Int) : Prop := 1 ≤ m ∧ m ≤ 12 ∧ 1 ≤ d ∧ d ≤ daysIn y m

theorem civil_spec (D : Int) :
    Valid (civil D).1 (civil D).2.1 (civil D).2.2 ∧
      firstOfMonth (civil D).1 (civil D).2.1 + (civil D).2.2 - 1 = D := by
  obtain ⟨hlo, hhi⟩ := yearOf_spec D
  rw [daysBefore_succ] at hhi
  obtain ⟨h1, h12, hm, hd⟩ := monthOf_spec (yearOf D)
    (show 0 ≤ D - daysBefore (yearOf D) by omega) (by omega)
  refine ⟨⟨h1, h12, by simp only [civil]; omega, by simp only [civil]; omega⟩, ?_⟩
  simp only [civil, firstOfMonth]
  omega

theorem civil_firstOfMonth {y m d : Int} (h : Valid y m d) :
    civil (firstOfMonth y m + d - 1) = (y, m, d) := by
  obtain ⟨h1, h12, hd1, hd⟩ := h
  have hin := cumDays_add_daysIn_le y h1 h12
  have hcum := cumDays_nonneg y h1
  have hyear : yearOf (firstOfMonth y m + d - 1) = y := by
    refine yearOf_eq ?_ ?_
    · unfold firstOfMonth; omega
    · rw [daysBefore_succ]; unfold firstOfMonth; omega
  have hmonth : monthOf y (firstOfMonth y m + d - 1 - daysBefore y) = m :=
    monthOf_eq y h1 h12 (by unfold firstOfMonth; omega) (by unfold firstOfMonth; omega)
  simp only [civil]
  rw [hyear, hmonth, Prod.mk.injEq, Prod.mk.injEq]
  refine ⟨rfl, rfl, ?_⟩
  unfold firstOfMonth
  omega

/-- The dates of day numbers: `civil D = (y, m, d)` exactly when `(y, m, d)` is valid and
numbers the day `D`. -/
theorem civil_eq_iff {D y m d : Int} :
    civil D = (y, m, d) ↔ Valid y m d ∧ firstOfMonth y m + d - 1 = D := by
  constructor
  · intro h
    have := civil_spec D
    rw [h] at this
    exact this
  · rintro ⟨hv, rfl⟩
    exact civil_firstOfMonth hv

theorem dayNumber_of_valid {y m : Int} (h1 : 1 ≤ m) (h12 : m ≤ 12) (d : Int) :
    dayNumber y m d = firstOfMonth y m + d - 1 := by
  unfold dayNumber
  rw [show (m - 1) / 12 = 0 by omega, show (m - 1) % 12 + 1 = m by omega, Int.add_zero]

theorem dayNumber_next_month {y m : Int} (h1 : 1 ≤ m) (h12 : m ≤ 12) :
    dayNumber y (m + 1) 1 = firstOfMonth y m + daysIn y m := by
  unfold dayNumber firstOfMonth
  by_cases hm : m = 12
  · subst hm
    have := cumDays_add_daysIn_le y (m := 12) (by omega) (by omega)
    have hfull : cumDays y 12 + daysIn y 12 = daysInYear y := by
      unfold cumDays daysIn daysInYear
      split_ifs <;> omega
    have hc1 : cumDays (y + 1) 1 = 0 := by simp [cumDays]
    rw [show (12 + 1 - 1 : Int) / 12 = 1 by decide, show (12 + 1 - 1 : Int) % 12 + 1 = 1 by decide,
      daysBefore_succ, hc1]
    omega
  · rw [show (m + 1 - 1) / 12 = 0 by omega, show (m + 1 - 1) % 12 + 1 = m + 1 by omega, Int.add_zero,
      cumDays_succ y h1 (by omega)]
    omega

theorem civil_dayNumber_one (y m : Int) : (civil (dayNumber y m 1)).2.2 = 1 := by
  have hv : Valid (y + (m - 1) / 12) ((m - 1) % 12 + 1) 1 :=
    ⟨by omega, by omega, le_refl _, one_le_daysIn _ _⟩
  rw [dayNumber, civil_firstOfMonth hv]

theorem civil_of_le_of_lt {D D' y m d : Int} (h : civil D = (y, m, d)) (hle : D ≤ D')
    (hlt : D' < firstOfMonth y m + daysIn y m) :
    (civil D').1 = y ∧ (civil D').2.1 = m := by
  obtain ⟨⟨h1, h12, hd1, hd⟩, hD⟩ := civil_eq_iff.mp h
  have hv : Valid y m (D' - firstOfMonth y m + 1) := ⟨h1, h12, by omega, by omega⟩
  rw [show D' = firstOfMonth y m + (D' - firstOfMonth y m + 1) - 1 by omega, civil_firstOfMonth hv]
  exact ⟨rfl, rfl⟩

theorem civil_succ {D y m d : Int} (h : civil D = (y, m, d)) :
    (civil (D + 1)).2.2 = 1 ∨ ((civil (D + 1)).1 = y ∧ (civil (D + 1)).2.1 = m) := by
  obtain ⟨⟨h1, h12, hd1, hd⟩, hD⟩ := civil_eq_iff.mp h
  by_cases hlast : d < daysIn y m
  · exact .inr (civil_of_le_of_lt h (by omega) (by omega))
  · -- the day after the last of a month is the first of the next
    left
    have hnext : D + 1 = dayNumber y (m + 1) 1 := by
      rw [dayNumber_next_month h1 h12]
      omega
    rw [hnext, civil_dayNumber_one]

theorem dayNumber_civil (D : Int) : dayNumber (civil D).1 (civil D).2.1 (civil D).2.2 = D := by
  obtain ⟨⟨h1, h12, -, -⟩, hD⟩ := civil_spec D
  rw [dayNumber_of_valid h1 h12, hD]

theorem dayNumber_add_day (y m d k : Int) : dayNumber y m (d + k) = dayNumber y m d + k := by
  unfold dayNumber
  omega

/-- The first of the month after `m`, read back: December goes on to January of the next
year. -/
theorem civil_next_month (y m : Int) :
    civil (dayNumber y (m + 1) 1) = (y + m / 12, m % 12 + 1, 1) := by
  have hv : Valid (y + m / 12) (m % 12 + 1) 1 := ⟨by omega, by omega, le_refl _, one_le_daysIn _ _⟩
  rw [dayNumber, show m + 1 - 1 = m by omega, civil_firstOfMonth hv]

theorem civil_year_le_iff {D Y : Int} : (civil D).1 ≤ Y ↔ D < daysBefore (Y + 1) := by
  obtain ⟨hlo, hhi⟩ := yearOf_spec D
  have hyear : (civil D).1 = yearOf D := rfl
  rw [hyear]
  constructor
  · intro hle
    have := daysBefore_le_of_le (show yearOf D + 1 ≤ Y + 1 by omega)
    omega
  · intro hlt
    by_contra hgt
    have := daysBefore_le_of_le (show Y + 1 ≤ yearOf D by omega)
    omega

theorem daysBefore_add_six_le (y : Int) : daysBefore (y + 6) ≤ daysBefore y + 6 * 366 := by
  unfold daysBefore
  omega

end Civil
