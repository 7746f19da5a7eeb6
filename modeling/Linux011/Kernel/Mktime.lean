import Linux011.Lib.Calendar
import Mathlib.Tactic.IntervalCases

/-!
# The clock at boot

`kernel/mktime.c`. An operation on `long`s whose result does not fit in 32 bits has no value, and neither
has a month outside the table.

1. `Tm`, `kernelMktime`.
2. `kernelMktime_eq`: its value, as long as every fourth year is a leap year.
3. `mktime_seconds`: the seconds of the calendar.
-/

namespace Linux011.Mktime

open Calendar

/-- `struct tm`, up to what `kernel_mktime` does not read. -/
structure Tm where
  tmSec : ℤ
  tmMin : ℤ
  tmHour : ℤ
  tmMday : ℤ
  tmMon : ℤ
  tmYear : ℤ

/-- The result of an operation on `long`s. -/
def long (x : ℤ) : Option ℤ := if -2 ^ 31 ≤ x ∧ x < 2 ^ 31 then some x else none

def MINUTE : ℤ := 60
def HOUR : ℤ := 60 * MINUTE
def DAY : ℤ := 24 * HOUR
def YEAR : ℤ := 365 * DAY

/-- Interestingly, it assumes leap-years. -/
def month : List ℤ := [
  0,
  DAY * 31,
  DAY * (31 + 29),
  DAY * (31 + 29 + 31),
  DAY * (31 + 29 + 31 + 30),
  DAY * (31 + 29 + 31 + 30 + 31),
  DAY * (31 + 29 + 31 + 30 + 31 + 30),
  DAY * (31 + 29 + 31 + 30 + 31 + 30 + 31),
  DAY * (31 + 29 + 31 + 30 + 31 + 30 + 31 + 31),
  DAY * (31 + 29 + 31 + 30 + 31 + 30 + 31 + 31 + 30),
  DAY * (31 + 29 + 31 + 30 + 31 + 30 + 31 + 31 + 30 + 31),
  DAY * (31 + 29 + 31 + 30 + 31 + 30 + 31 + 31 + 30 + 31 + 30)]

/-- `month[m]`. -/
def monthAt (m : ℤ) : Option ℤ := if 0 ≤ m then month[m.toNat]? else none

/-- If it wasn't a leap-year, we have to adjust. -/
def adjust (tm : Tm) (year res : ℤ) : Option ℤ :=
  if 1 < tm.tmMon then do
    let y ← long (year + 2)
    if y.tmod 4 ≠ 0 then long (res - DAY) else some res
  else some res

def kernelMktime (tm : Tm) : Option ℤ := do
  let year ← long (tm.tmYear - 70)
  let years ← long (YEAR * year)
  let y ← long (year + 1)
  let leapDays ← long (DAY * y.tdiv 4)
  let res ← long (years + leapDays)
  let m ← monthAt tm.tmMon
  let res ← long (res + m)
  let res ← adjust tm year res
  let d ← long (tm.tmMday - 1)
  let d ← long (DAY * d)
  let res ← long (res + d)
  let h ← long (HOUR * tm.tmHour)
  let res ← long (res + h)
  let m ← long (MINUTE * tm.tmMin)
  let res ← long (res + m)
  long (res + tm.tmSec)

/-- A date and time as `kernel_mktime` is given it. -/
def tmOf (t : DateTime 1970) : Tm where
  tmSec := t.sec
  tmMin := t.min
  tmHour := t.hour
  tmMday := t.day
  tmMon := t.month
  tmYear := t.year - 1900

/-! ## Its value -/

/-- An operation that has a value. -/
theorem bind_of {x : Option ℤ} {y : ℤ} {f : ℤ → Option ℤ} (h : x = some y) : (x >>= f) = f y := by
  rw [h]
  rfl

theorem HOUR_eq : HOUR = 3600 := by decide

theorem DAY_eq : DAY = 86400 := by decide

theorem YEAR_eq : YEAR = 31536000 := by decide

theorem long_of {x : ℤ} (h0 : 0 ≤ x) (h : x < 2 ^ 31) : long x = some x :=
  if_pos ⟨by omega, h⟩

theorem long_eq {x y : ℤ} (hx : x = y) (h0 : 0 ≤ y) (h : y < 2 ^ 31) : long x = some y := by
  rw [hx, long_of h0 h]

/-- The table is right for leap years, and a day too long after February in other ones. -/
theorem monthAt_eq (y : ℕ) {m : ℕ} (hm : m < 12) :
    monthAt m = some (DAY * daysBeforeMonth y m + if 1 < m ∧ ¬ IsLeap y then DAY else 0) := by
  by_cases h : IsLeap y
  · interval_cases m <;> simp [monthAt, month, daysBeforeMonth, Finset.sum_range_succ, monthDays, h]
  · interval_cases m <;>
      simp [monthAt, month, daysBeforeMonth, Finset.sum_range_succ, monthDays, h, DAY, HOUR, MINUTE]

theorem daysBeforeMonth_le (y : ℕ) {m : ℕ} (hm : m < 12) : daysBeforeMonth y m ≤ 338 := by
  have hle := daysBeforeMonth_add_le (y := y) hm
  have hyear : daysBeforeMonth y 12 = yearDays y := sum_monthDays y
  have h366 : yearDays y ≤ 366 := by unfold yearDays; split <;> decide
  have h28 : 28 ≤ monthDays y m := by unfold monthDays; split_ifs <;> decide
  omega

theorem le_daysBeforeMonth (y : ℕ) {m : ℕ} (hm : 1 < m) : 59 ≤ daysBeforeMonth y m := by
  have hle := daysBeforeMonth_add_le (y := y) hm
  have h31 : daysBeforeMonth y 1 = 31 := by simp [daysBeforeMonth, monthDays]
  have h28 : 28 ≤ monthDays y 1 := by unfold monthDays; split_ifs <;> omega
  omega

/-- Up to 2099 every fourth year is a leap year. -/
theorem isLeap_iff {y : ℕ} (h : 1970 ≤ y) (h' : y < 2100) : IsLeap y ↔ y % 4 = 0 := by
  unfold IsLeap
  omega

theorem daysBefore_1970 {y : ℕ} (h : 1970 ≤ y) (h' : y ≤ 2100) :
    daysBefore 1970 y = 365 * (y - 1970) + (y - 1970 + 1) / 4 := by
  have heq := daysBefore_eq h fun i hi hlt => isLeap_iff hi (hlt.trans_le h')
  omega

variable {t : DateTime 1970}

theorem year_le (h : t.seconds < 2 ^ 31) : t.year ≤ 2038 := by
  by_contra hlt
  have hmono : daysBefore 1970 2039 ≤ daysBefore 1970 t.year :=
    Finset.sum_le_sum_of_subset (Finset.Ico_subset_Ico_right (by omega))
  rw [daysBefore_1970 (by decide) (by decide)] at hmono
  unfold DateTime.seconds DateTime.days at h
  omega

/-- The day too much of the table is taken off. -/
theorem adjust_eq (year res : ℕ) (hyear : t.year = 1970 + year) (hle : year ≤ 68)
    (hres : 86400 * res < 2 ^ 31) :
    adjust (tmOf t) year (DAY * res + if 1 < t.month ∧ ¬ IsLeap t.year then DAY else 0) =
      some (DAY * res) := by
  have hleap := isLeap_iff t.year_ge (by omega)
  have hmon : (tmOf t).tmMon = t.month := rfl
  have hday : DAY * (res : ℤ) = 86400 * res := by rw [DAY_eq]
  have htmod : ((year : ℤ) + 2).tmod 4 = ((year + 2) % 4 : ℕ) := rfl
  unfold adjust
  rw [hmon, long_of (by omega) (by omega)]
  by_cases hm : 1 < t.month
  · rw [if_pos (by exact_mod_cast hm)]
    show (if ((year : ℤ) + 2).tmod 4 ≠ 0 then _ else _) = _
    rw [htmod]
    by_cases hl : IsLeap t.year
    · have hdvd := hleap.1 hl
      rw [if_neg (by omega), if_neg (by simp [hl]), add_zero]
    · have hdvd := mt hleap.2 hl
      rw [if_pos (by omega), if_pos ⟨hm, hl⟩, add_sub_cancel_right]
      exact long_of (by omega) (by omega)
  · rw [if_neg (by exact_mod_cast hm), if_neg (by simp [hm]), add_zero]

/-- **The value of `kernel_mktime`**: no operation on the way overflows. -/
theorem kernelMktime_eq (h : t.seconds < 2 ^ 31) : kernelMktime (tmOf t) = some (t.seconds : ℤ) := by
  have hlast := year_le h
  have hpos := t.day_pos
  have hmonth := daysBeforeMonth_le t.year t.month_lt
  have hmonth' : 1 < t.month → 59 ≤ daysBeforeMonth t.year t.month := le_daysBeforeMonth t.year
  obtain ⟨year, hyear⟩ := Nat.exists_eq_add_of_le t.year_ge
  obtain ⟨d, hd⟩ := Nat.exists_eq_add_of_le hpos
  have hbefore : daysBefore 1970 t.year = 365 * year + (year + 1) / 4 := by
    rw [daysBefore_1970 t.year_ge (by omega), hyear, Nat.add_sub_cancel_left]
  have hseconds : t.seconds = 86400 * (daysBefore 1970 t.year + daysBeforeMonth t.year t.month + d) +
      3600 * t.hour + 60 * t.min + t.sec := by
    unfold DateTime.seconds DateTime.days
    rw [hd, Nat.add_sub_cancel_left]
  rw [hbefore] at hseconds
  have hmon : monthAt (tmOf t).tmMon = _ := monthAt_eq t.year t.month_lt
  have hcorrect := adjust_eq year (365 * year + (year + 1) / 4 + daysBeforeMonth t.year t.month) hyear
    (by omega) (by omega)
  generalize hextra : (if 1 < t.month ∧ ¬ IsLeap t.year then DAY else 0) = extra at hmon hcorrect
  have hnonneg : 0 ≤ extra ∧ extra ≤ 86400 ∧ (extra = 0 ∨ 1 < t.month) := by
    rw [← hextra, DAY_eq]
    split
    · next h => exact ⟨by decide, by decide, .inr h.1⟩
    · exact ⟨le_rfl, by decide, .inl rfl⟩
  generalize daysBeforeMonth t.year t.month = before at *
  generalize hdays : 365 * year + (year + 1) / 4 = days at *
  -- The day too much is no overflow: the years before 2038 end early enough, and 2038 in January.
  have hroom : 86400 * ((days + before : ℕ) : ℤ) + extra < 2 ^ 31 := by
    rcases (by omega : year ≤ 67 ∨ year = 68) with hle | rfl
    · have hle' : days ≤ 24472 := by omega
      omega
    · omega
  have hdiv : ((year : ℤ) + 1).tdiv 4 = ((year + 1) / 4 : ℕ) := by
    rw [Int.natCast_div, Int.tdiv_eq_ediv_of_nonneg (by omega)]
    push_cast
    rfl
  have h1 : long ((tmOf t).tmYear - 70) = some (year : ℤ) := by
    have hval : (tmOf t).tmYear - 70 = year := by
      show (t.year : ℤ) - 1900 - 70 = year
      omega
    exact long_eq hval (by omega) (by omega)
  have h7 : long ((tmOf t).tmMday - 1) = some (d : ℤ) := by
    have hval : (tmOf t).tmMday - 1 = d := by
      show (t.day : ℤ) - 1 = d
      omega
    exact long_eq hval (by omega) (by omega)
  have h2 : long (YEAR * year) = some (31536000 * (year : ℤ)) := by
    rw [YEAR_eq]
    exact long_of (by omega) (by omega)
  have h4 : long (DAY * ((year : ℤ) + 1).tdiv 4) = some (86400 * ((year + 1) / 4 : ℕ) : ℤ) := by
    rw [DAY_eq, hdiv]
    exact long_of (by omega) (by omega)
  have h5 : long (31536000 * (year : ℤ) + 86400 * ((year + 1) / 4 : ℕ)) = some (86400 * (days : ℤ)) :=
    long_eq (by omega) (by omega) (by omega)
  have h6 : long (86400 * (days : ℤ) + (DAY * before + extra)) =
      some (DAY * ((days + before : ℕ) : ℤ) + extra) := by
    rw [DAY_eq]
    exact long_eq (by omega) (by omega) (by omega)
  have h8 : long (DAY * d) = some (86400 * (d : ℤ)) := by
    rw [DAY_eq]
    exact long_of (by omega) (by omega)
  have h9 : long (DAY * ((days + before : ℕ) : ℤ) + 86400 * d) =
      some (86400 * ((days + before + d : ℕ) : ℤ)) := by
    rw [DAY_eq]
    exact long_eq (by omega) (by omega) (by omega)
  have h10 : long (HOUR * t.hour) = some (3600 * (t.hour : ℤ)) := by
    rw [HOUR_eq]
    exact long_of (by omega) (by omega)
  refine (bind_of h1).trans ((bind_of h2).trans ?_)
  refine (bind_of (long_of (by omega) (by omega))).trans ((bind_of h4).trans ((bind_of h5).trans ?_))
  refine (bind_of hmon).trans ((bind_of h6).trans ((bind_of hcorrect).trans ?_))
  refine (bind_of h7).trans ((bind_of h8).trans ((bind_of h9).trans ?_))
  refine (bind_of h10).trans ((bind_of (long_of (by omega) (by omega))).trans ?_)
  refine (bind_of (long_of (x := 60 * (t.min : ℤ)) (by omega) (by omega))).trans ?_
  refine (bind_of (long_of (by omega) (by omega))).trans ?_
  exact long_eq (by show _ + (t.sec : ℤ) = _; omega) (by omega) (by omega)

/-- **Every date and time from 1970 on whose seconds fit in a `long` is converted to them**, with no
overflow on the way, and a later one to more. -/
theorem mktime_seconds (t : DateTime 1970) (h : t.seconds ≤ 2 ^ 31 - 1) :
    kernelMktime (tmOf t) = some (t.seconds : ℤ) ∧
    ∀ u < t, ∃ s : ℤ, kernelMktime (tmOf u) = some s ∧ s < t.seconds := by
  have hlt : t.seconds < 2 ^ 31 := by omega
  refine ⟨kernelMktime_eq hlt, fun u hu => ?_⟩
  have hearlier := DateTime.seconds_strictMono hu
  exact ⟨u.seconds, kernelMktime_eq (hearlier.trans hlt), by exact_mod_cast hearlier⟩

/-- The last second that fits. -/
def lastSecond : DateTime 1970 :=
  ⟨2038, 0, 19, 3, 14, 7, by decide, by decide, by decide, by decide, by decide, by decide, by decide⟩

theorem mktime_seconds_last :
    lastSecond.seconds = 2 ^ 31 - 1 ∧ kernelMktime (tmOf lastSecond) = some (lastSecond.seconds : ℤ) :=
  ⟨by decide +kernel, (mktime_seconds lastSecond (by decide +kernel)).1⟩

end Linux011.Mktime
