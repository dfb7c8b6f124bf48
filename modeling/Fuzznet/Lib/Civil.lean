/-
# Days of the Gregorian calendar

Days counted within an era of 400 years that begins on a first of March, so that a leap day is
the last day of its year.  The year a day is in is found by taking the leap days passed away
again and dividing by 365 (`yearOfEra`), and the month by a line through the lengths of the
months (`monthOfYear`).  Both are right: a day is between the start of its year and the next
(`yearOfEra_spec`), only a leap year has a day 365 (`leap_of_day`), and a day of a year is
between the start of its month and the next (`monthOfYear_spec`).
-/

import Mathlib.Data.Nat.Notation

namespace Fuzznet
namespace Lib

/-- The days of an era before its year `y`. -/
def yearStart (y : ℕ) : ℕ := 365 * y + y / 4 - y / 100

/-- The year of an era a day is in. -/
def yearOfEra (day : ℕ) : ℕ := (day - day / 1460 + day / 36524 - day / 146096) / 365

/-- The days of a year before its month, March being month 0. -/
def monthStart (m : ℕ) : ℕ := (153 * m + 2) / 5

/-- The month of a year a day is in. -/
def monthOfYear (day : ℕ) : ℕ := (5 * day + 2) / 153

/-- A leap year. -/
def LeapYear (y : ℕ) : Prop := y % 4 = 0 ∧ y % 100 ≠ 0 ∨ y % 400 = 0

instance (y : ℕ) : Decidable (LeapYear y) := inferInstanceAs (Decidable (_ ∨ _))

/-- **A day of an era by centuries, by fours of years and by years.**  The last year of a four
has a day 365, but for the last of a century other than the era's last. -/
theorem day_split {day : ℕ} (h : day < 146097) : ∃ c q k t, c ≤ 3 ∧ q ≤ 24 ∧ k ≤ 3 ∧ t ≤ 365 ∧
    day = 36524 * c + 1461 * q + 365 * k + t ∧ (t = 365 → k = 3 ∧ (q ≤ 23 ∨ c = 3)) := by
  obtain ⟨c, r, hc, hr, rfl, hera⟩ : ∃ c r, c ≤ 3 ∧ r ≤ 36524 ∧ day = 36524 * c + r ∧
      (r = 36524 → c = 3) :=
    ⟨min 3 (day / 36524), day - 36524 * min 3 (day / 36524), by omega⟩
  obtain ⟨k, t, hk, ht, hfour, hleap⟩ : ∃ k t, k ≤ 3 ∧ t ≤ 365 ∧ r % 1461 = 365 * k + t ∧
      (t = 365 → k = 3) :=
    ⟨min 3 (r % 1461 / 365), r % 1461 - 365 * min 3 (r % 1461 / 365), by omega⟩
  exact ⟨c, r / 1461, k, t, hc, by omega, hk, ht, by omega, fun h => ⟨hleap h, by
    have := hleap h
    omega⟩⟩

theorem yearStart_split {c q k : ℕ} (hq : q ≤ 24) (hk : k ≤ 3) :
    yearStart (100 * c + 4 * q + k) = 36524 * c + 1461 * q + 365 * k := by
  have hfours : (100 * c + 4 * q + k) / 4 = 25 * c + q := by omega
  have hhundreds : (100 * c + 4 * q + k) / 100 = c := by omega
  rw [yearStart, hfours, hhundreds]
  omega

theorem yearOfEra_split {c q k t : ℕ} (hc : c ≤ 3) (hq : q ≤ 24) (hk : k ≤ 3) (ht : t ≤ 365)
    (hlast : t = 365 → k = 3 ∧ (q ≤ 23 ∨ c = 3)) :
    yearOfEra (36524 * c + 1461 * q + 365 * k + t) = 100 * c + 4 * q + k := by
  -- the leap days passed: one for each four of years, but for three of the four centuries
  have hfour : ∃ e ≤ 1, (e = 1 ↔ 1460 ≤ 24 * c + q + 365 * k + t) ∧
      (36524 * c + 1461 * q + 365 * k + t) / 1460 = 25 * c + q + e := by
    by_cases hover : 1460 ≤ 24 * c + q + 365 * k + t
    · exact ⟨1, Nat.le_refl 1, by omega, by omega⟩
    · exact ⟨0, Nat.zero_le 1, by omega, by omega⟩
  obtain ⟨e, -, hover, hfour⟩ := hfour
  have hsum : 36524 * c + 1461 * q + 365 * k + t - (25 * c + q + e) + c =
      365 * (100 * c + 4 * q + k) + (t - e) ∧ t - e < 365 := by
    omega
  -- only the era's last day is past the four centuries, and there both corrections are one more
  have hcentury : (36524 * c + 1461 * q + 365 * k + t) / 36524 =
      c + (36524 * c + 1461 * q + 365 * k + t) / 146096 := by
    by_cases hend : c = 3 ∧ q = 24 ∧ k = 3 ∧ t = 365
    · obtain ⟨rfl, rfl, rfl, rfl⟩ := hend
      rfl
    · have hwithin : 1461 * q + 365 * k + t < 36524 := by omega
      rw [Nat.div_eq_of_lt_le (k := c) (by omega) (by omega), Nat.div_eq_of_lt (by omega),
        Nat.add_zero]
  unfold yearOfEra
  rw [hfour, hcentury, ← Nat.add_assoc, Nat.add_sub_cancel, hsum.1, Nat.mul_add_div (by decide),
    Nat.div_eq_of_lt hsum.2, Nat.add_zero]

/-- **A day is in the year found for it.** -/
theorem yearOfEra_spec {day : ℕ} (h : day < 146097) : yearOfEra day ≤ 399 ∧
    yearStart (yearOfEra day) ≤ day ∧ day ≤ yearStart (yearOfEra day) + 365 := by
  obtain ⟨c, q, k, t, hc, hq, hk, ht, rfl, hlast⟩ := day_split h
  rw [yearOfEra_split hc hq hk ht hlast, yearStart_split hq hk]
  omega

/-- Only a leap year has a day 365. -/
theorem leap_of_day {day : ℕ} (h : day < 146097) (hday : day = yearStart (yearOfEra day) + 365) :
    LeapYear (yearOfEra day + 1) := by
  obtain ⟨c, q, k, t, hc, hq, hk, ht, rfl, hlast⟩ := day_split h
  rw [yearOfEra_split hc hq hk ht hlast, yearStart_split hq hk] at hday
  rw [yearOfEra_split hc hq hk ht hlast, LeapYear]
  obtain ⟨rfl, hrest⟩ := hlast (by omega)
  omega

/-- Later years start later. -/
theorem yearStart_lt {y y' : ℕ} (h : y < y') : yearStart y + 365 ≤ yearStart y' := by
  have hhundred (y : ℕ) : y / 100 = y / 4 / 25 := (Nat.div_div_eq_div_mul y 4 25).symm
  have hleap {a b : ℕ} (hab : a ≤ b) : a / 25 ≤ a ∧ b / 25 ≤ b ∧ a - a / 25 ≤ b - b / 25 := by
    omega
  have hfours := hleap (Nat.div_le_div_right (c := 4) (Nat.le_of_lt h))
  unfold yearStart
  rw [hhundred, hhundred]
  omega

/-- **A day of a year is in the month found for it.** -/
theorem monthOfYear_spec {day : ℕ} (h : day ≤ 365) : monthOfYear day ≤ 11 ∧
    monthStart (monthOfYear day) ≤ day ∧ day < monthStart (monthOfYear day + 1) := by
  unfold monthOfYear monthStart
  omega

end Lib
end Fuzznet
