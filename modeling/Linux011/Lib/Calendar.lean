import Mathlib.Algebra.BigOperators.Intervals
import Mathlib.Algebra.Order.BigOperators.Group.Finset
import Mathlib.Data.Prod.Lex

/-!
# The Gregorian calendar

Days and seconds of the civil calendar, counted by the lengths of its years and months.

1. `IsLeap`, `yearDays`, `monthDays`; `sum_monthDays`: the months make up the year.
2. `daysBefore`: the days of the years before one, and without a sum, `daysBefore_eq`.
3. `DateTime e`: a date not before the year `e` and a time of day. `DateTime.seconds`: the seconds
   since the first day of the year `e`, `seconds_strictMono`.
-/

namespace Linux011.Calendar

def IsLeap (y : ℕ) : Prop := y % 4 = 0 ∧ (y % 100 = 0 → y % 400 = 0)

instance : DecidablePred IsLeap := fun y =>
  inferInstanceAs (Decidable (y % 4 = 0 ∧ (y % 100 = 0 → y % 400 = 0)))

def yearDays (y : ℕ) : ℕ := if IsLeap y then 366 else 365

/-- The days of a month; January is the month 0. -/
def monthDays (y m : ℕ) : ℕ :=
  if m = 1 then if IsLeap y then 29 else 28
  else if m = 3 ∨ m = 5 ∨ m = 8 ∨ m = 10 then 30
  else 31

theorem sum_monthDays (y : ℕ) : ∑ m ∈ Finset.range 12, monthDays y m = yearDays y := by
  unfold yearDays
  by_cases h : IsLeap y <;> simp [Finset.sum_range_succ, monthDays, h]

/-- The days from the beginning of the year `e` to that of the year `y`. -/
def daysBefore (e y : ℕ) : ℕ := ∑ i ∈ Finset.Ico e y, yearDays i

/-- The days of a year before its month `m`. -/
def daysBeforeMonth (y m : ℕ) : ℕ := ∑ i ∈ Finset.range m, monthDays y i

theorem daysBeforeMonth_add_le {y m n : ℕ} (h : m < n) :
    daysBeforeMonth y m + monthDays y m ≤ daysBeforeMonth y n := by
  unfold daysBeforeMonth
  rw [← Finset.sum_range_succ]
  exact Finset.sum_le_sum_of_subset (Finset.range_mono h)

theorem daysBefore_add_le {e y z : ℕ} (he : e ≤ y) (h : y < z) :
    daysBefore e y + yearDays y ≤ daysBefore e z := by
  unfold daysBefore
  rw [← Finset.sum_Ico_succ_top he]
  exact Finset.sum_le_sum_of_subset (Finset.Ico_subset_Ico_right h)

/-- The leap days are counted by a division where every fourth year is a leap year. -/
theorem daysBefore_eq {e y : ℕ} (he : e ≤ y) (h : ∀ i, e ≤ i → i < y → (IsLeap i ↔ i % 4 = 0)) :
    daysBefore e y + (e + 3) / 4 = 365 * (y - e) + (y + 3) / 4 := by
  induction y, he using Nat.le_induction with
  | base => simp [daysBefore]
  | succ y he ih =>
    have hprev := ih fun i hi hlt => h i hi (hlt.trans (Nat.lt_succ_self y))
    have hstep : daysBefore e (y + 1) = daysBefore e y + yearDays y := Finset.sum_Ico_succ_top he _
    have hleap := h y he (Nat.lt_succ_self y)
    have hdays : yearDays y = if y % 4 = 0 then 366 else 365 := if_congr hleap rfl rfl
    rw [hstep, hdays]
    split <;> omega

/-! ## Dates -/

/-- A date of the years from `e` on, and a time of day. -/
@[ext] structure DateTime (e : ℕ) where
  year : ℕ
  month : ℕ
  day : ℕ
  hour : ℕ
  min : ℕ
  sec : ℕ
  year_ge : e ≤ year
  month_lt : month < 12
  day_pos : 1 ≤ day
  day_le : day ≤ monthDays year month
  hour_lt : hour < 24
  min_lt : min < 60
  sec_lt : sec < 60

namespace DateTime

variable {e : ℕ} (t u : DateTime e)

/-- The days since the first one of the year `e`. -/
def days : ℕ := daysBefore e t.year + daysBeforeMonth t.year t.month + (t.day - 1)

/-- The seconds since the beginning of the year `e`. -/
def seconds : ℕ := 86400 * t.days + 3600 * t.hour + 60 * t.min + t.sec

/-- Dates are compared by their years first. -/
def key : ℕ ×ₗ ℕ ×ₗ ℕ ×ₗ ℕ ×ₗ ℕ ×ₗ ℕ :=
  toLex (t.year, toLex (t.month, toLex (t.day, toLex (t.hour, toLex (t.min, t.sec)))))

theorem key_injective : Function.Injective (key : DateTime e → _) := by
  intro t u h
  simp only [key, EmbeddingLike.apply_eq_iff_eq, Prod.mk.injEq] at h
  obtain ⟨h1, h2, h3, h4, h5, h6⟩ := h
  exact DateTime.ext h1 h2 h3 h4 h5 h6

instance : LinearOrder (DateTime e) := LinearOrder.lift' key key_injective

variable {t u}

theorem lt_iff : t < u ↔ t.year < u.year ∨ t.year = u.year ∧ (t.month < u.month ∨ t.month = u.month ∧
    (t.day < u.day ∨ t.day = u.day ∧ (t.hour < u.hour ∨ t.hour = u.hour ∧
      (t.min < u.min ∨ t.min = u.min ∧ t.sec < u.sec)))) := by
  show t.key < u.key ↔ _
  simp only [key, Prod.Lex.toLex_lt_toLex]

/-- The day of a year is one of its days. -/
theorem day_of_year_lt : daysBeforeMonth t.year t.month + (t.day - 1) < yearDays t.year := by
  have hmonth := daysBeforeMonth_add_le (y := t.year) t.month_lt
  have hyear : daysBeforeMonth t.year 12 = yearDays t.year := sum_monthDays t.year
  have hpos := t.day_pos
  have hle := t.day_le
  omega

theorem days_lt_of_year (h : t.year < u.year) : t.days < u.days := by
  have hday := day_of_year_lt (t := t)
  have hyear := daysBefore_add_le t.year_ge h
  unfold days
  omega

theorem days_lt_of_month (hy : t.year = u.year) (h : t.month < u.month) : t.days < u.days := by
  have hmonth := daysBeforeMonth_add_le (y := t.year) h
  have hpos := t.day_pos
  have hle := t.day_le
  unfold days
  rw [← hy]
  omega

theorem days_lt_of_day (hy : t.year = u.year) (hm : t.month = u.month) (h : t.day < u.day) :
    t.days < u.days := by
  have hpos := t.day_pos
  unfold days
  rw [← hy, ← hm]
  omega

theorem seconds_lt_of_days (h : t.days < u.days) : t.seconds < u.seconds := by
  have hhour := t.hour_lt
  have hmin := t.min_lt
  have hsec := t.sec_lt
  unfold seconds
  omega

/-- **A later date has more seconds behind it.** -/
theorem seconds_strictMono : StrictMono (seconds : DateTime e → ℕ) := by
  intro t u h
  rcases lt_iff.1 h with h | ⟨hy, h | ⟨hm, h | ⟨hd, h⟩⟩⟩
  · exact seconds_lt_of_days (days_lt_of_year h)
  · exact seconds_lt_of_days (days_lt_of_month hy h)
  · exact seconds_lt_of_days (days_lt_of_day hy hm h)
  · have hdays : t.days = u.days := by
      unfold days
      rw [hy, hm, hd]
    have hmin := t.min_lt
    have hsec := t.sec_lt
    unfold seconds
    omega

end DateTime

end Linux011.Calendar
