/-
# The TIME of a line, written

`civil_from_days` and `time_text` of `log/entry.c`: microseconds since 1970 as the 27
characters a line begins with.  The date of a day is that of its March year in its era of 400
(`civilFromDays_natCast`), and the day of that date is the day again (`daysFromCivil_march`).
There is a text of every time up to the year 9999 and of none past it, and it is read back to
the microsecond (`timeText_spec`); no text is read as a time past it (`timeParse_lt`).
-/

import Mathlib.Tactic.IntervalCases
import Fuzznet.Lib.Civil
import Fuzznet.Log.LineTime

namespace Fuzznet
namespace Log

open Wire Lib

/-- `civil_from_days`: the year, the month and the day of the month. -/
def civilFromDays (z : ℤ) : ℤ × ℕ × ℕ :=
  let z := z + 719468
  let era := (if 0 ≤ z then z else z - 146096).tdiv 146097
  let doe := z - era * 146097
  let yoe := (doe - doe.tdiv 1460 + doe.tdiv 36524 - doe.tdiv 146096).tdiv 365
  let doy := doe - (365 * yoe + yoe.tdiv 4 - yoe.tdiv 100)
  let mp := (5 * doy + 2).tdiv 153
  let d := (doy - (153 * mp + 2).tdiv 5 + 1).toNat
  let m := (if mp < 10 then mp + 3 else mp - 9).toNat
  (yoe + era * 400 + (if m ≤ 2 then 1 else 0), m, d)

/-- `%0wu`: a number in `w` digits or more. -/
def padded (w n : ℕ) : Bytes := List.replicate (w - (decimal n).length) 48 ++ decimal n

/-- The characters of a time around its seven numbers. -/
def timeLayout (y mo d h mi s frac : Bytes) : Bytes :=
  y ++ 45 :: (mo ++ 45 :: (d ++ 84 :: (h ++ 58 :: (mi ++ 58 :: (s ++ 46 :: (frac ++ [90]))))))

/-- `time_text`; none past the year 9999. -/
def timeText (us : UInt64) : Option Bytes :=
  let secs := us.toNat / 1000000
  let rem := secs % 86400
  let (y, m, d) := civilFromDays (secs / 86400 : ℕ)
  if 9999 < y then none
  else
    some ((timeLayout (padded 4 y.toNat) (padded 2 m) (padded 2 d) (padded 2 (rem / 3600))
      (padded 2 (rem / 60 % 60)) (padded 2 (rem % 60))
      (padded 6 (us.toNat % 1000000))).take timeLen)

/-- The first microsecond no text is written for, the year 10000's. -/
def timeEnd : ℕ := 253402300800000000

/-! ## A date of a March year -/

/-- The year of day `t` of March year `y` of an era. -/
def marchYear (era y t : ℕ) : ℕ := 400 * era + y + if monthOfYear t < 10 then 0 else 1

/-- The month of day `t` of a March year. -/
def marchMonth (t : ℕ) : ℕ := if monthOfYear t < 10 then monthOfYear t + 3 else monthOfYear t - 9

/-- Its day of the month. -/
def marchDayOfMonth (t : ℕ) : ℕ := t - monthStart (monthOfYear t) + 1

/-- A day of the calendar, as its era, its year there and its day there. -/
structure MarchDay (n era y t : ℕ) : Prop where
  day : n + 719468 = 146097 * era + (yearStart y + t)
  year : y ≤ 399
  within : t ≤ 365
  leap : t = 365 → LeapYear (y + 1)

/-- Every day is one. -/
theorem marchDay (n : ℕ) : MarchDay n ((n + 719468) / 146097)
    (yearOfEra ((n + 719468) % 146097))
    ((n + 719468) % 146097 - yearStart (yearOfEra ((n + 719468) % 146097))) := by
  have hlt : (n + 719468) % 146097 < 146097 := Nat.mod_lt _ (by omega)
  obtain ⟨hyear, hfrom, hto⟩ := yearOfEra_spec hlt
  exact ⟨by omega, hyear, by omega, fun h => leap_of_day hlt (by omega)⟩

/-- **A day's date is that of its March year.** -/
theorem civilFromDays_natCast (n : ℕ) : ∃ era y t, MarchDay n era y t ∧
    civilFromDays n = (((marchYear era y t : ℕ) : ℤ), marchMonth t, marchDayOfMonth t) := by
  refine ⟨_, _, _, marchDay n, ?_⟩
  have hmarch := marchDay n
  generalize hera : (n + 719468) / 146097 = era at hmarch ⊢
  generalize hday : (n + 719468) % 146097 = day at hmarch ⊢
  generalize hy : yearOfEra day = y at hmarch ⊢
  generalize ht : day - yearStart y = t at hmarch ⊢
  have hn : n + 719468 = 146097 * era + day := by omega
  have hz : (n : ℤ) + 719468 = ((n + 719468 : ℕ) : ℤ) := by push_cast; rfl
  have hera' : ((n : ℤ) + 719468).tdiv 146097 = era := by
    rw [hz, ← hera]
    exact (Int.ofNat_tdiv _ _).symm
  have hdoe : (n : ℤ) + 719468 - era * 146097 = day := by omega
  have hyoe : ((day : ℤ) - (day : ℤ).tdiv 1460 + (day : ℤ).tdiv 36524 -
      (day : ℤ).tdiv 146096).tdiv 365 = y := by
    have hcast : (day : ℤ) - (day : ℤ).tdiv 1460 + (day : ℤ).tdiv 36524 -
        (day : ℤ).tdiv 146096 =
        ((day - day / 1460 + day / 36524 - day / 146096 : ℕ) : ℤ) := by
      have h₁ : (day : ℤ).tdiv 1460 = (day / 1460 : ℕ) := (Int.ofNat_tdiv _ _).symm
      have h₂ : (day : ℤ).tdiv 36524 = (day / 36524 : ℕ) := (Int.ofNat_tdiv _ _).symm
      have h₃ : (day : ℤ).tdiv 146096 = (day / 146096 : ℕ) := (Int.ofNat_tdiv _ _).symm
      rw [h₁, h₂, h₃]
      omega
    rw [hcast, ← hy]
    exact (Int.ofNat_tdiv _ _).symm
  have hdoy : (day : ℤ) - (365 * y + (y : ℤ).tdiv 4 - (y : ℤ).tdiv 100) = t := by
    have h₁ : (y : ℤ).tdiv 4 = (y / 4 : ℕ) := (Int.ofNat_tdiv _ _).symm
    have h₂ : (y : ℤ).tdiv 100 = (y / 100 : ℕ) := (Int.ofNat_tdiv _ _).symm
    have hstart := hmarch.day
    rw [yearStart] at hstart
    rw [h₁, h₂]
    omega
  have hmp : (5 * (t : ℤ) + 2).tdiv 153 = (monthOfYear t : ℕ) := by
    have hcast : 5 * (t : ℤ) + 2 = ((5 * t + 2 : ℕ) : ℤ) := by push_cast; rfl
    rw [hcast]
    exact (Int.ofNat_tdiv _ _).symm
  obtain ⟨hlast, hfrom, -⟩ := monthOfYear_spec hmarch.within
  have hstart : (153 * (monthOfYear t : ℤ) + 2).tdiv 5 = (monthStart (monthOfYear t) : ℕ) := by
    have hcast : 153 * (monthOfYear t : ℤ) + 2 = ((153 * monthOfYear t + 2 : ℕ) : ℤ) := by
      push_cast; rfl
    rw [hcast]
    exact (Int.ofNat_tdiv _ _).symm
  unfold civilFromDays marchYear marchMonth marchDayOfMonth
  dsimp only
  rw [if_pos (by omega), hera', hdoe, hyoe, hdoy, hmp, hstart]
  generalize monthOfYear t = mp at hlast hfrom ⊢
  have hmonth : (if (mp : ℤ) < 10 then (mp : ℤ) + 3 else mp - 9).toNat =
      if mp < 10 then mp + 3 else mp - 9 := by
    split_ifs <;> omega
  rw [hmonth]
  refine Prod.ext ?_ (Prod.ext rfl ?_)
  · dsimp only
    split_ifs <;> omega
  · dsimp only
    omega

section Day

variable {n era y t : ℕ}

/-- **The day of a day's date is the day.** -/
theorem daysFromCivil_march (h : MarchDay n era y t) :
    daysFromCivil (marchYear era y t) (marchMonth t) (marchDayOfMonth t) = n := by
  obtain ⟨hday, hyear, hwithin, -⟩ := h
  obtain ⟨hlast, hfrom, -⟩ := monthOfYear_spec hwithin
  unfold daysFromCivil marchYear marchMonth marchDayOfMonth
  dsimp only
  generalize monthOfYear t = mp at hlast hfrom ⊢
  have hera : ((400 * era + y : ℕ) : ℤ).tdiv 400 = era := by
    rw [show (400 : ℤ) = ((400 : ℕ) : ℤ) by rfl, ← Int.ofNat_tdiv]
    omega
  have hy₁ : (y : ℤ).tdiv 4 = (y / 4 : ℕ) := (Int.ofNat_tdiv _ _).symm
  have hy₂ : (y : ℤ).tdiv 100 = (y / 100 : ℕ) := (Int.ofNat_tdiv _ _).symm
  have hstart : (153 * (mp : ℤ) + 2).tdiv 5 = (monthStart mp : ℕ) := by
    have hcast : 153 * (mp : ℤ) + 2 = ((153 * mp + 2 : ℕ) : ℤ) := by push_cast; rfl
    rw [hcast]
    exact (Int.ofNat_tdiv _ _).symm
  rw [yearStart] at hday
  by_cases hearly : mp < 10
  · simp only [if_pos hearly]
    have hyear' : ((400 * era + y + 0 : ℕ) : ℤ) - (if mp + 3 ≤ 2 then 1 else 0) =
        ((400 * era + y : ℕ) : ℤ) := by
      rw [if_neg (by omega)]
      omega
    have hmonth : (if 2 < mp + 3 then ((mp + 3 : ℕ) : ℤ) - 3 else ((mp + 3 : ℕ) : ℤ) + 9) =
        mp := by
      rw [if_pos (by omega)]
      omega
    rw [hyear', hmonth, if_pos (by omega), hera, hstart,
      show ((400 * era + y : ℕ) : ℤ) - era * 400 = y by omega, hy₁, hy₂]
    omega
  · simp only [if_neg hearly]
    have hyear' : ((400 * era + y + 1 : ℕ) : ℤ) - (if mp - 9 ≤ 2 then 1 else 0) =
        ((400 * era + y : ℕ) : ℤ) := by
      rw [if_pos (by omega)]
      omega
    have hmonth : (if 2 < mp - 9 then ((mp - 9 : ℕ) : ℤ) - 3 else ((mp - 9 : ℕ) : ℤ) + 9) =
        mp := by
      rw [if_neg (by omega)]
      omega
    rw [hyear', hmonth, if_pos (by omega), hera, hstart,
      show ((400 * era + y : ℕ) : ℤ) - era * 400 = y by omega, hy₁, hy₂]
    omega

theorem marchYear_ge (h : MarchDay n era y t) : 1970 ≤ marchYear era y t := by
  obtain ⟨hday, hyear, hwithin, -⟩ := h
  obtain ⟨-, -, hto⟩ := monthOfYear_spec hwithin
  have hnext (hlt : y < 369) : yearStart y + 365 ≤ yearStart 369 := yearStart_lt hlt
  have hstart : yearStart 369 = 134774 := rfl
  -- before year 369 of era 4 there is no day of 1970, and in it none before January
  rcases Nat.lt_trichotomy y 369 with hlt | rfl | hgt
  · unfold marchYear
    have := hnext hlt
    omega
  · unfold marchYear
    split_ifs with hearly
    · have hmarch : monthStart (monthOfYear t + 1) ≤ monthStart 10 := by
        unfold monthStart
        omega
      have hten : monthStart 10 = 306 := rfl
      omega
    · omega
  · have hera : yearStart y ≤ 145731 := by
      unfold yearStart
      omega
    unfold marchYear
    omega

/-- The last day of the year 9999. -/
def lastDay : ℕ := 2932896

theorem marchYear_le_iff (h : MarchDay n era y t) : marchYear era y t ≤ 9999 ↔ n ≤ lastDay := by
  obtain ⟨hday, hyear, hwithin, -⟩ := h
  obtain ⟨-, hfrom, hto⟩ := monthOfYear_spec hwithin
  have hnext (hlt : y < 399) : yearStart y + 365 ≤ yearStart 399 := yearStart_lt hlt
  have hlast : yearStart 399 = 145731 := rfl
  have hten : monthStart 10 = 306 := rfl
  have hbefore : monthOfYear t < 10 ↔ t < 306 := by
    unfold monthOfYear
    omega
  unfold marchYear lastDay
  rcases Nat.lt_or_eq_of_le hyear with hlt | rfl
  · have := hnext hlt
    split_ifs with hearly
    · omega
    · omega
  · split_ifs with hearly
    · omega
    · omega

theorem marchMonth_mem (h : t ≤ 365) : 1 ≤ marchMonth t ∧ marchMonth t ≤ 12 := by
  have hlast := (monthOfYear_spec h).1
  unfold marchMonth
  split_ifs <;> omega

theorem marchDayOfMonth_le (h : t ≤ 365) :
    marchDayOfMonth t ≤ monthDays.getD (marchMonth t - 1) 0 := by
  obtain ⟨hlast, hfrom, hto⟩ := monthOfYear_spec h
  unfold marchDayOfMonth marchMonth
  generalize monthOfYear t = mp at hlast hfrom hto ⊢
  unfold monthStart at hfrom hto ⊢
  interval_cases mp <;> simp [monthDays] <;> omega

/-- A 29th of February is the last day of a March year. -/
theorem leap_of_february (h : MarchDay n era y t) (hm : marchMonth t = 2)
    (hd : marchDayOfMonth t = 29) : LeapYear (marchYear era y t) := by
  obtain ⟨hlast, hfrom, -⟩ := monthOfYear_spec h.within
  unfold marchMonth at hm
  unfold marchDayOfMonth at hd
  unfold marchYear
  split_ifs at hm ⊢ with hearly
  · omega
  · have heleven : monthOfYear t = 11 := by omega
    have hstart : monthStart 11 = 337 := rfl
    rw [heleven] at hfrom hd
    have hleap := h.leap (by omega)
    unfold LeapYear at hleap ⊢
    omega

end Day

/-! ## The digits of a number -/

theorem digits_append_digit {t : Bytes} {v d : ℕ} (ht : digits t = some v) (hd : d < 10) :
    digits (t ++ [decimalDigit d]) = some (v * 10 + d) := by
  rw [digits] at ht ⊢
  rw [List.foldlM_append, ht, Option.bind_eq_bind, Option.bind_some, List.foldlM_cons,
    if_neg (isDigit_iff.1 (isDigit_decimalDigit hd)), toNat_decimalDigit hd,
    Nat.add_sub_cancel_left]
  rfl

theorem digits_zeros (k : ℕ) : digits (List.replicate k 48) = some 0 := by
  induction k with
  | zero => rfl
  | succ k ih =>
    rw [List.replicate_succ']
    exact digits_append_digit (d := 0) ih (by omega)

/-- **A number written in a fixed width is read back.** -/
theorem digits_padded (w n : ℕ) : digits (padded w n) = some n := by
  unfold padded
  generalize w - (decimal n).length = k
  induction n using Nat.strong_induction_on with
  | _ n ih =>
    rcases Nat.lt_or_ge n 10 with hn | hn
    · rw [decimal_of_lt hn, digits_append_digit (digits_zeros k) hn, Nat.zero_mul, Nat.zero_add]
    · rw [decimal_of_ge hn, ← List.append_assoc,
        digits_append_digit (ih (n / 10) (by omega)) (by omega), Nat.div_add_mod']

theorem length_padded {w n : ℕ} (h : n < 10 ^ (w + 1)) : (padded (w + 1) n).length = w + 1 := by
  have hlen := length_decimal_le h
  rw [padded, List.length_append, List.length_replicate]
  omega

/-- Digits read are digits, and fewer than the power of ten they could reach. -/
theorem digits_some {t : Bytes} {n : ℕ} (h : digits t = some n) :
    (∀ c ∈ t, IsDigit c) ∧ n < 10 ^ t.length := by
  induction t using List.reverseRecOn generalizing n with
  | nil =>
    obtain rfl := Option.some.inj h
    exact ⟨fun c hc => absurd hc List.not_mem_nil, Nat.one_pos⟩
  | append_singleton t c ih =>
    rw [digits, List.foldlM_append, Option.bind_eq_bind, Option.bind_eq_some_iff] at h
    obtain ⟨v, hv, hstep⟩ := h
    obtain ⟨hdigits, hlt⟩ := ih hv
    rw [List.foldlM_cons] at hstep
    split_ifs at hstep with hrange
    · cases hstep
    · have hnext : v * 10 + (c.toNat - 48) = n := Option.some.inj hstep
      have hdigit := isDigit_iff.2 hrange
      refine ⟨fun d hd => ?_, ?_⟩
      · rcases List.mem_append.1 hd with hd | hd
        · exact hdigits d hd
        · rwa [List.mem_singleton.1 hd]
      · rw [IsDigit] at hdigit
        rw [List.length_append, List.length_singleton, Nat.pow_succ]
        omega

/-! ## The characters of a time -/

section Layout

variable {Y M D H I S F : Bytes} {y m d h i s f : ℕ}

/-- What `time_parse` asks of the seven numbers. -/
def TimeOk (y m d h i s : ℕ) : Prop :=
  ¬ (y < 1970 ∨ m < 1 ∨ 12 < m ∨ d < 1 ∨ monthDays.getD (m - 1) 0 < d ∨
    m = 2 ∧ d = 29 ∧ ¬ LeapYear y ∨ 23 < h ∨ 59 < i ∨ 59 < s)

instance (y m d h i s : ℕ) : Decidable (TimeOk y m d h i s) :=
  inferInstanceAs (Decidable (¬ _))

/-- The microseconds of seven numbers. -/
def timeOf (y m d h i s f : ℕ) : ℕ :=
  ((daysFromCivil y m d).toNat * 86400 + h * 3600 + i * 60 + s) * 1000000 + f

/-- The lengths of the seven fields. -/
def FieldLengths (Y M D H I S F : Bytes) : Prop :=
  Y.length = 4 ∧ M.length = 2 ∧ D.length = 2 ∧ H.length = 2 ∧ I.length = 2 ∧ S.length = 2 ∧
    F.length = 6

theorem length_timeLayout (hlen : FieldLengths Y M D H I S F) :
    (timeLayout Y M D H I S F).length = timeLen := by
  obtain ⟨hY, hM, hD, hH, hI, hS, hF⟩ := hlen
  simp [timeLayout, timeLen, hY, hM, hD, hH, hI, hS, hF]

/-- **Seven numbers laid out are parsed.** -/
theorem timeParse_layout (hlen : FieldLengths Y M D H I S F) (hy : digits Y = some y)
    (hm : digits M = some m) (hd : digits D = some d) (hh : digits H = some h)
    (hi : digits I = some i) (hs : digits S = some s) (hf : digits F = some f) :
    timeParse (timeLayout Y M D H I S F) =
      if TimeOk y m d h i s then some (timeOf y m d h i s f) else none := by
  have hlength := length_timeLayout hlen
  obtain ⟨hY, hM, hD, hH, hI, hS, hF⟩ := hlen
  match Y, hY with
  | [a₁, a₂, a₃, a₄], _ =>
  match M, hM with
  | [b₁, b₂], _ =>
  match D, hD with
  | [c₁, c₂], _ =>
  match H, hH with
  | [d₁, d₂], _ =>
  match I, hI with
  | [e₁, e₂], _ =>
  match S, hS with
  | [f₁, f₂], _ =>
  match F, hF with
  | [g₁, g₂, g₃, g₄, g₅, g₆], _ =>
    unfold timeParse
    rw [if_neg (by rw [hlength]; simp [timeLayout])]
    change (digits [a₁, a₂, a₃, a₄]).bind _ = _
    rw [hy, Option.bind_some]
    change (digits [b₁, b₂]).bind _ = _
    rw [hm, Option.bind_some]
    change (digits [c₁, c₂]).bind _ = _
    rw [hd, Option.bind_some]
    change (digits [d₁, d₂]).bind _ = _
    rw [hh, Option.bind_some]
    change (digits [e₁, e₂]).bind _ = _
    rw [hi, Option.bind_some]
    change (digits [f₁, f₂]).bind _ = _
    rw [hs, Option.bind_some]
    change (digits [g₁, g₂, g₃, g₄, g₅, g₆]).bind _ = _
    rw [hf, Option.bind_some]
    by_cases hok : TimeOk y m d h i s
    · rw [if_pos hok]
      exact if_neg hok
    · rw [if_neg hok]
      exact if_pos (not_not.1 hok)

theorem take_cons_drop {t : Bytes} {k : ℕ} {c : UInt8} (hk : k < t.length)
    (hc : t.getD k 0 = c) : t.drop k = c :: t.drop (k + 1) := by
  rw [← hc, List.getD_eq_getElem?_getD, List.getElem?_eq_getElem hk, Option.getD_some]
  exact List.drop_eq_getElem_cons hk

/-- **What is parsed is seven numbers laid out.** -/
theorem timeParse_some {t : Bytes} {us : ℕ} (h : timeParse t = some us) :
    ∃ Y M D H I S F y m d h i s f, FieldLengths Y M D H I S F ∧ t = timeLayout Y M D H I S F ∧
      digits Y = some y ∧ digits M = some m ∧ digits D = some d ∧ digits H = some h ∧
      digits I = some i ∧ digits S = some s ∧ digits F = some f ∧ TimeOk y m d h i s ∧
      us = timeOf y m d h i s f := by
  unfold timeParse at h
  split_ifs at h with hshape
  simp only [not_or, not_not] at hshape
  obtain ⟨hlen, h₄, h₇, h₁₀, h₁₃, h₁₆, h₁₉, h₂₆⟩ := hshape
  simp only [Option.bind_eq_bind, Option.bind_eq_some_iff] at h
  obtain ⟨y, hy, m, hm, d, hd, hh, hhh, i, hi, s, hs, f, hf, h⟩ := h
  rw [timeLen] at hlen
  refine ⟨t.take 4, (t.drop 5).take 2, (t.drop 8).take 2, (t.drop 11).take 2, (t.drop 14).take 2,
    (t.drop 17).take 2, (t.drop 20).take 6, y, m, d, hh, i, s, f, ?_, ?_, hy, hm, hd, hhh, hi, hs,
    hf, ?_⟩
  · simp only [FieldLengths, List.length_take, List.length_drop, hlen]
    decide
  · have hfield (k n : ℕ) : t.drop k = (t.drop k).take n ++ t.drop (k + n) := by
      rw [← List.drop_drop, List.take_append_drop]
    have hend : t.drop 27 = [] := List.drop_eq_nil_of_le (by omega)
    rw [timeLayout, ← hend, ← take_cons_drop (by omega) h₂₆, ← hfield 20 6,
      ← take_cons_drop (by omega) h₁₉, ← hfield 17 2, ← take_cons_drop (by omega) h₁₆,
      ← hfield 14 2, ← take_cons_drop (by omega) h₁₃, ← hfield 11 2,
      ← take_cons_drop (by omega) h₁₀, ← hfield 8 2, ← take_cons_drop (by omega) h₇,
      ← hfield 5 2, ← take_cons_drop (by omega) h₄, List.take_append_drop]
  · split_ifs at h with hok
    exact ⟨hok, (Option.some.inj h).symm⟩

/-- The bytes of a time. -/
theorem mem_timeLayout {c : UInt8} (hc : c ∈ timeLayout Y M D H I S F) :
    (c ∈ Y ∨ c ∈ M ∨ c ∈ D ∨ c ∈ H ∨ c ∈ I ∨ c ∈ S ∨ c ∈ F) ∨
      c = 45 ∨ c = 84 ∨ c = 58 ∨ c = 46 ∨ c = 90 := by
  simp only [timeLayout, List.mem_append, List.mem_cons, List.not_mem_nil, or_false] at hc
  tauto

/-- The day `b` days into March year `a` is no later than the last of the year 9999. -/
theorem marchYear_day_le {a b : ℕ} (ha : a ≤ 9998 ∧ b ≤ 367 ∨ a = 9999 ∧ b ≤ 305) :
    (a : ℤ).tdiv 400 * 146097 + (((a : ℤ) - (a : ℤ).tdiv 400 * 400) * 365 +
      ((a : ℤ) - (a : ℤ).tdiv 400 * 400).tdiv 4 -
      ((a : ℤ) - (a : ℤ).tdiv 400 * 400).tdiv 100 + b) - 719468 ≤ lastDay := by
  have hera : (a : ℤ).tdiv 400 = (a / 400 : ℕ) := (Int.ofNat_tdiv _ _).symm
  have hyoe : (a : ℤ) - (a / 400 : ℕ) * 400 = (a % 400 : ℕ) := by omega
  have h₁ : ((a % 400 : ℕ) : ℤ).tdiv 4 = (a % 400 / 4 : ℕ) := (Int.ofNat_tdiv _ _).symm
  have h₂ : ((a % 400 : ℕ) : ℤ).tdiv 100 = (a % 400 / 100 : ℕ) := (Int.ofNat_tdiv _ _).symm
  have hlast : yearStart 399 = 145731 := rfl
  have hnext (hlt : a % 400 < 399) : yearStart (a % 400) + 365 ≤ yearStart 399 :=
    yearStart_lt hlt
  have hstart : a % 400 * 365 + a % 400 / 4 = yearStart (a % 400) + a % 400 / 100 := by
    unfold yearStart
    omega
  have hmod : a % 400 ≤ 399 := by omega
  rw [hera, hyoe, h₁, h₂, lastDay]
  generalize yearStart (a % 400) = start at hnext hstart
  rcases Nat.lt_or_eq_of_le hmod with hlt | heq
  · have := hnext hlt
    omega
  · rw [heq] at hstart ⊢
    omega

/-- No day of the years to 9999 is past the last of them. -/
theorem daysFromCivil_le (hy : 1970 ≤ y) (hy' : y ≤ 9999) (hm : m ≤ 12) (hd : 1 ≤ d)
    (hd' : d ≤ 31) : daysFromCivil y m d ≤ lastDay := by
  unfold daysFromCivil
  dsimp only
  by_cases hmonth : m ≤ 2
  · have hdoy : (153 * ((m : ℤ) + 9) + 2).tdiv 5 + d - 1 =
        ((153 * (m + 9) + 2) / 5 + d - 1 : ℕ) := by
      rw [show 153 * ((m : ℤ) + 9) + 2 = ((153 * (m + 9) + 2 : ℕ) : ℤ) by push_cast; rfl,
        show (((153 * (m + 9) + 2 : ℕ) : ℤ)).tdiv 5 = ((153 * (m + 9) + 2) / 5 : ℕ) from
          (Int.ofNat_tdiv _ _).symm]
      omega
    rw [if_pos hmonth, if_neg (show ¬ 2 < m by omega), hdoy,
      show (y : ℤ) - 1 = ((y - 1 : ℕ) : ℤ) by omega,
      if_pos (show (0 : ℤ) ≤ ((y - 1 : ℕ) : ℤ) by omega)]
    exact marchYear_day_le (.inl (by omega))
  · have hdoy : (153 * ((m : ℤ) - 3) + 2).tdiv 5 + d - 1 =
        ((153 * (m - 3) + 2) / 5 + d - 1 : ℕ) := by
      rw [show 153 * ((m : ℤ) - 3) + 2 = ((153 * (m - 3) + 2 : ℕ) : ℤ) by omega,
        show (((153 * (m - 3) + 2 : ℕ) : ℤ)).tdiv 5 = ((153 * (m - 3) + 2) / 5 : ℕ) from
          (Int.ofNat_tdiv _ _).symm]
      omega
    rw [if_neg hmonth, if_pos (show 2 < m by omega), hdoy, Int.sub_zero,
      if_pos (show (0 : ℤ) ≤ (y : ℤ) by omega)]
    exact marchYear_day_le (by omega)

theorem monthDays_le (m : ℕ) : monthDays.getD m 0 ≤ 31 := by
  rcases Nat.lt_or_ge m 12 with h | h
  · interval_cases m <;> decide
  · rw [List.getD_eq_getElem?_getD, List.getElem?_eq_none (by simpa [monthDays] using h)]
    decide

/-- **A time parsed is before the year 10000.** -/
theorem timeParse_lt {t : Bytes} {us : ℕ} (h : timeParse t = some us) :
    us < timeEnd := by
  obtain ⟨Y, M, D, H, I, S, F, y, m, d, h', i, s, f, hlen, -, hy, -, -, -, -, -, hf, hok, rfl⟩ :=
    timeParse_some h
  have hyear := (digits_some hy).2
  have hfrac := (digits_some hf).2
  rw [hlen.1] at hyear
  rw [hlen.2.2.2.2.2.2] at hfrac
  unfold TimeOk at hok
  have hmonth := monthDays_le (m - 1)
  have hday : daysFromCivil y m d ≤ lastDay :=
    daysFromCivil_le (by omega) (by omega) (by omega) (by omega) (by omega)
  unfold timeOf timeEnd
  rw [lastDay] at hday
  omega

end Layout

/-- **There is a text of a time up to the year 9999**, and it is read back. -/
theorem timeText_spec (us : UInt64) : if us.toNat < timeEnd then
    ∃ t, timeText us = some t ∧ t.length = timeLen ∧ timeParse t = some us.toNat
    else timeText us = none := by
  obtain ⟨era, y, t, hday, hcivil⟩ := civilFromDays_natCast (us.toNat / 1000000 / 86400)
  have hle := marchYear_le_iff hday
  have hge := marchYear_ge hday
  have hback := daysFromCivil_march hday
  obtain ⟨hm, hm'⟩ := marchMonth_mem hday.within
  have hd := marchDayOfMonth_le hday.within
  have hleap := leap_of_february hday
  have hdpos : 1 ≤ marchDayOfMonth t := Nat.le_add_left 1 _
  have hdays := monthDays_le (marchMonth t - 1)
  rw [lastDay] at hle
  unfold timeText
  dsimp only
  rw [hcivil]
  dsimp only
  rw [Int.toNat_natCast]
  generalize marchYear era y t = year at *
  generalize marchMonth t = month at *
  generalize marchDayOfMonth t = day at *
  split_ifs with hlt hpast hpast
  · rw [timeEnd] at hlt
    omega
  · have hlen : FieldLengths (padded 4 year) (padded 2 month) (padded 2 day)
        (padded 2 (us.toNat / 1000000 % 86400 / 3600))
        (padded 2 (us.toNat / 1000000 % 86400 / 60 % 60))
        (padded 2 (us.toNat / 1000000 % 86400 % 60)) (padded 6 (us.toNat % 1000000)) :=
      ⟨length_padded (by omega), length_padded (by omega), length_padded (by omega),
        length_padded (by omega), length_padded (by omega), length_padded (by omega),
        length_padded (by omega)⟩
    have hlength := length_timeLayout hlen
    refine ⟨_, rfl, ?_, ?_⟩
    · rw [← hlength, List.take_length]
    · have hok : TimeOk year month day (us.toNat / 1000000 % 86400 / 3600)
          (us.toNat / 1000000 % 86400 / 60 % 60) (us.toNat / 1000000 % 86400 % 60) := by
        unfold TimeOk
        rw [not_or, not_or, not_or, not_or, not_or, not_or, not_or, not_or]
        exact ⟨by omega, by omega, by omega, by omega, by omega,
          fun h => h.2.2 (hleap h.1 h.2.1), by omega, by omega, by omega⟩
      rw [← hlength, List.take_length, timeParse_layout hlen (digits_padded _ _)
        (digits_padded _ _) (digits_padded _ _) (digits_padded _ _) (digits_padded _ _)
        (digits_padded _ _) (digits_padded _ _), if_pos hok, timeOf, hback, Int.toNat_natCast]
      congr 1
      omega
  · rfl
  · rw [timeEnd] at hlt
    omega

end Log
end Fuzznet
