import Mathlib.Algebra.BigOperators.Intervals
import Mathlib.Algebra.Order.BigOperators.Group.Finset
import Mathlib.Order.Interval.Finset.Nat

/-!
# The Gregorian calendar

Dates with the lengths of months and years of the Gregorian calendar, the number of days since 1970-01-01 and its
inverse, and the same for dates with a time of day and seconds. The number of days is the sum of the years and
months that are over; that it counts the days one by one is `Onixs.Calendar.Date.days_next`.
-/

namespace Onixs

namespace Calendar

/-- Every fourth year is a leap year, but of the years that end a century only every fourth. -/
def IsLeap (year : ℕ) : Prop := year % 4 = 0 ∧ (year % 100 ≠ 0 ∨ year % 400 = 0)

instance : DecidablePred IsLeap := fun year =>
  inferInstanceAs (Decidable (year % 4 = 0 ∧ (year % 100 ≠ 0 ∨ year % 400 = 0)))

/-- The days of a year. -/
def yearLength (year : ℕ) : ℕ := if IsLeap year then 366 else 365

/-- The days of a month, January being 1. -/
def monthLength (year month : ℕ) : ℕ :=
  if month = 2 then if IsLeap year then 29 else 28
  else if month = 4 ∨ month = 6 ∨ month = 9 ∨ month = 11 then 30 else 31

/-- The days of a year before a month. -/
def daysBeforeMonth (year month : ℕ) : ℕ := ∑ m ∈ Finset.Ico 1 month, monthLength year m

/-- The days from 1970 on before a year. -/
def daysBeforeYear (year : ℕ) : ℕ := ∑ y ∈ Finset.Ico 1970 year, yearLength y

/-- The leap years from 1970 on before a year. -/
def leapYearsBefore (year : ℕ) : ℕ := ((Finset.Ico 1970 year).filter IsLeap).card

section Sums

variable {year month : ℕ}

theorem monthLength_pos : 0 < monthLength year month := by
  unfold monthLength
  split_ifs <;> omega

theorem daysBeforeMonth_succ (year : ℕ) (h : 1 ≤ month) :
    daysBeforeMonth year (month + 1) = daysBeforeMonth year month + monthLength year month :=
  Finset.sum_Ico_succ_top h _

theorem daysBeforeMonth_mono (year : ℕ) : Monotone (daysBeforeMonth year) := fun _ _ h =>
  Finset.sum_le_sum_of_subset (Finset.Ico_subset_Ico_right h)

theorem daysBeforeYear_succ (h : 1970 ≤ year) :
    daysBeforeYear (year + 1) = daysBeforeYear year + yearLength year :=
  Finset.sum_Ico_succ_top h _

theorem daysBeforeYear_mono : Monotone daysBeforeYear := fun _ _ h =>
  Finset.sum_le_sum_of_subset (Finset.Ico_subset_Ico_right h)

/-- The months make up the year. -/
theorem daysBeforeMonth_thirteen (year : ℕ) : daysBeforeMonth year 13 = yearLength year := by
  unfold yearLength
  split_ifs with h <;> simp [daysBeforeMonth, Finset.sum_Ico_succ_top, monthLength, h]

/-- From 1970 to 2099 every fourth year is a leap year. -/
theorem isLeap_iff (h : 1970 ≤ year) (h' : year < 2100) : IsLeap year ↔ year % 4 = 0 := by
  rw [IsLeap]
  omega

theorem leapYearsBefore_succ (h : 1970 ≤ year) :
    leapYearsBefore (year + 1) = leapYearsBefore year + if IsLeap year then 1 else 0 := by
  have hnew : year ∉ (Finset.Ico 1970 year).filter IsLeap := fun hmem =>
    absurd (Finset.mem_Ico.mp (Finset.mem_filter.mp hmem).1).2 (lt_irrefl _)
  rw [leapYearsBefore, leapYearsBefore, Nat.Ico_succ_right_eq_insert_Ico h, Finset.filter_insert]
  split_ifs
  · exact Finset.card_insert_of_notMem hnew
  · exact (Nat.add_zero _).symm

/-- A year has 365 days, and one more for each leap year before. -/
theorem daysBeforeYear_eq (h : 1970 ≤ year) : daysBeforeYear year = 365 * (year - 1970) + leapYearsBefore year := by
  induction year, h using Nat.le_induction with
  | base => rfl
  | succ year hyear ih =>
    rw [daysBeforeYear_succ hyear, leapYearsBefore_succ hyear, ih, yearLength]
    split_ifs <;> omega

/-- The leap years before a year until 2100. -/
theorem leapYearsBefore_eq (h : 1970 ≤ year) (h' : year ≤ 2100) : leapYearsBefore year = (year - 1969) / 4 := by
  induction year, h using Nat.le_induction with
  | base => rfl
  | succ year hyear ih =>
    have hleap : IsLeap year ↔ year % 4 = 0 := isLeap_iff hyear (by omega)
    rw [leapYearsBefore_succ hyear, ih (by omega)]
    simp only [hleap]
    split_ifs <;> omega

end Sums

/-- A date. -/
@[ext] structure Date where
  /-- The year. -/
  year : ℕ
  /-- The month, January being 1. -/
  month : ℕ
  /-- The day of the month. -/
  day : ℕ
  month_pos : 1 ≤ month
  month_le : month ≤ 12
  day_pos : 1 ≤ day
  day_le : day ≤ monthLength year month

namespace Date

/-- The earlier of two dates. -/
instance : LT Date where
  lt d e := d.year < e.year ∨ d.year = e.year ∧ (d.month < e.month ∨ d.month = e.month ∧ d.day < e.day)

theorem lt_iff {d e : Date} : d < e ↔
    d.year < e.year ∨ d.year = e.year ∧ (d.month < e.month ∨ d.month = e.month ∧ d.day < e.day) :=
  Iff.rfl

theorem lt_trichotomy (d e : Date) : d < e ∨ d = e ∨ e < d := by
  rw [lt_iff, lt_iff, Date.ext_iff]
  omega

/-- The days of the year before a date. -/
def yday (d : Date) : ℕ := daysBeforeMonth d.year d.month + (d.day - 1)

/-- The days from 1970-01-01 to a date. -/
def days (d : Date) : ℕ := daysBeforeYear d.year + d.yday

/-- The day of the week, Sunday being 0: 1970-01-01 was a Thursday. -/
def wday (d : Date) : ℕ := (d.days + 4) % 7

/-- 1970-01-01. -/
def epoch : Date := ⟨1970, 1, 1, by decide, by decide, by decide, by decide⟩

/-- The day after. -/
def next (d : Date) : Date :=
  if hday : d.day < monthLength d.year d.month then
    ⟨d.year, d.month, d.day + 1, d.month_pos, d.month_le, Nat.succ_pos _, hday⟩
  else if hmonth : d.month < 12 then
    ⟨d.year, d.month + 1, 1, Nat.succ_pos _, hmonth, le_rfl, monthLength_pos⟩
  else ⟨d.year + 1, 1, 1, le_rfl, Nat.succ_pos _, le_rfl, monthLength_pos⟩

/-- The date a number of days after 1970-01-01. -/
def ofDays (n : ℕ) : Date := next^[n] epoch

variable {d e : Date}

/-- A date is before the next month. -/
theorem yday_lt (d : Date) : d.yday < daysBeforeMonth d.year (d.month + 1) := by
  have hle := d.day_le
  have hpos := d.day_pos
  rw [daysBeforeMonth_succ _ d.month_pos, yday]
  omega

theorem yday_lt_yearLength (d : Date) : d.yday < yearLength d.year := by
  have hle := daysBeforeMonth_mono d.year (Nat.succ_le_succ d.month_le)
  rw [← daysBeforeMonth_thirteen]
  exact d.yday_lt.trans_le hle

/-- A date is before the first of a year when its year is earlier. -/
theorem days_lt_iff {year : ℕ} (hd : 1970 ≤ d.year) : d.days < daysBeforeYear year ↔ d.year < year := by
  constructor
  · intro h
    by_contra hle
    have hmono := daysBeforeYear_mono (Nat.not_lt.mp hle)
    rw [days] at h
    omega
  · intro h
    have hlt := d.yday_lt_yearLength
    have hle := daysBeforeYear_mono (Nat.succ_le_of_lt h)
    rw [Nat.succ_eq_add_one, daysBeforeYear_succ hd] at hle
    rw [days]
    omega

/-- **The number of days keeps the order.** -/
theorem days_lt_days (hd : 1970 ≤ d.year) (h : d < e) : d.days < e.days := by
  rw [lt_iff] at h
  rcases h with hyear | ⟨hyear, h⟩
  · exact ((days_lt_iff hd).mpr hyear).trans_le (Nat.le_add_right _ _)
  · rw [days, days, hyear]
    refine Nat.add_lt_add_left ?_ _
    rcases h with hmonth | ⟨hmonth, hday⟩
    · -- the month of `d` is over
      have hlt := d.yday_lt
      have hle := daysBeforeMonth_mono d.year (Nat.succ_le_of_lt hmonth)
      have he : e.yday = daysBeforeMonth d.year e.month + (e.day - 1) := by rw [yday, hyear]
      rw [Nat.succ_eq_add_one] at hle
      omega
    · have hpos := d.day_pos
      rw [yday, yday, hyear, hmonth]
      omega

/-- Different dates have different numbers. -/
theorem days_injective (hd : 1970 ≤ d.year) (he : 1970 ≤ e.year) (h : d.days = e.days) : d = e := by
  rcases lt_trichotomy d e with hlt | heq | hlt
  · exact absurd h (days_lt_days hd hlt).ne
  · exact heq
  · exact absurd h (days_lt_days he hlt).ne'

/-- **The next day has the next number.** -/
theorem days_next (hd : 1970 ≤ d.year) : d.next.days = d.days + 1 := by
  have hpos := d.day_pos
  have hle := d.day_le
  unfold next
  split_ifs with hday hmonth
  · simp only [days, yday]
    omega
  · have hsucc := daysBeforeMonth_succ d.year d.month_pos
    simp only [days, yday]
    omega
  · -- the last day of December
    have hmonth : d.month = 12 := le_antisymm d.month_le (Nat.not_lt.mp hmonth)
    have hsucc : daysBeforeMonth d.year 13 = daysBeforeMonth d.year 12 + monthLength d.year 12 :=
      daysBeforeMonth_succ _ (by decide)
    have hyear := daysBeforeMonth_thirteen d.year
    have hfirst : daysBeforeMonth (d.year + 1) 1 = 0 := rfl
    rw [hmonth] at hday hle
    simp only [days, yday, daysBeforeYear_succ hd, hfirst, hmonth]
    omega

theorem year_le_year (h : d < e) : d.year ≤ e.year := by
  rw [lt_iff] at h
  omega

theorem year_le_next (d : Date) : d.year ≤ d.next.year := by
  unfold next
  split_ifs
  · exact le_rfl
  · exact le_rfl
  · exact Nat.le_succ _

theorem ofDays_succ (n : ℕ) : ofDays (n + 1) = (ofDays n).next := Function.iterate_succ_apply' _ _ _

theorem le_year_ofDays (n : ℕ) : 1970 ≤ (ofDays n).year := by
  induction n with
  | zero => exact le_rfl
  | succ n ih =>
    rw [ofDays_succ]
    exact ih.trans (year_le_next _)

@[simp] theorem days_ofDays (n : ℕ) : (ofDays n).days = n := by
  induction n with
  | zero => rfl
  | succ n ih => rw [ofDays_succ, days_next (le_year_ofDays n), ih]

theorem ofDays_days (hd : 1970 ≤ d.year) : ofDays d.days = d :=
  days_injective (le_year_ofDays _) hd (days_ofDays _)

end Date

/-- A date with a time of day. -/
@[ext] structure DateTime extends Date where
  /-- The hour. -/
  hour : ℕ
  /-- The minute. -/
  minute : ℕ
  /-- The second. -/
  second : ℕ
  hour_lt : hour < 24
  minute_lt : minute < 60
  second_lt : second < 60

namespace DateTime

/-- The earlier of two. -/
instance : LT DateTime where
  lt x y := x.toDate < y.toDate ∨ x.toDate = y.toDate ∧ (x.hour < y.hour ∨ x.hour = y.hour ∧
    (x.minute < y.minute ∨ x.minute = y.minute ∧ x.second < y.second))

theorem lt_iff {x y : DateTime} : x < y ↔
    x.toDate < y.toDate ∨ x.toDate = y.toDate ∧ (x.hour < y.hour ∨ x.hour = y.hour ∧
      (x.minute < y.minute ∨ x.minute = y.minute ∧ x.second < y.second)) :=
  Iff.rfl

/-- The seconds since 1970-01-01 00:00:00. -/
def seconds (x : DateTime) : ℕ := x.days * 86400 + x.hour * 3600 + x.minute * 60 + x.second

/-- The date and time a number of seconds after 1970-01-01 00:00:00. -/
def ofSeconds (t : ℕ) : DateTime where
  toDate := Date.ofDays (t / 86400)
  hour := t / 3600 % 24
  minute := t / 60 % 60
  second := t % 60
  hour_lt := Nat.mod_lt _ (by decide)
  minute_lt := Nat.mod_lt _ (by decide)
  second_lt := Nat.mod_lt _ (by decide)

theorem year_le_year {x y : DateTime} (h : x < y) : x.year ≤ y.year := by
  rcases lt_iff.mp h with hlt | ⟨heq, -⟩
  · exact Date.year_le_year hlt
  · rw [heq]

/-- The seconds before 2100. -/
theorem seconds_lt_iff {x : DateTime} (hx : 1970 ≤ x.year) : x.seconds < 4102444800 ↔ x.year < 2100 := by
  have hhour := x.hour_lt
  have hminute := x.minute_lt
  have hsecond := x.second_lt
  have hend : daysBeforeYear 2100 = 47482 := by
    rw [daysBeforeYear_eq (by decide), leapYearsBefore_eq (by decide) le_rfl]
  rw [← Date.days_lt_iff hx, hend, seconds]
  omega

/-- The parts of the number of seconds. -/
theorem seconds_second (x : DateTime) : x.seconds % 60 = x.second := by
  have hsecond := x.second_lt
  rw [seconds]
  omega

theorem seconds_minute (x : DateTime) : x.seconds / 60 % 60 = x.minute := by
  have hminute := x.minute_lt
  have hsecond := x.second_lt
  rw [seconds]
  omega

theorem seconds_hour (x : DateTime) : x.seconds / 60 / 60 % 24 = x.hour := by
  have hhour := x.hour_lt
  have hminute := x.minute_lt
  have hsecond := x.second_lt
  rw [seconds]
  omega

theorem seconds_days (x : DateTime) : x.seconds / 60 / 60 / 24 = x.days := by
  have hhour := x.hour_lt
  have hminute := x.minute_lt
  have hsecond := x.second_lt
  rw [seconds]
  omega

theorem toDate_ofSeconds (t : ℕ) : (ofSeconds t).toDate = Date.ofDays (t / 86400) := rfl

/-- **The number of seconds keeps the order.** -/
theorem seconds_lt_seconds {x y : DateTime} (hx : 1970 ≤ x.year) (h : x < y) : x.seconds < y.seconds := by
  have hhour := x.hour_lt
  have hminute := x.minute_lt
  have hsecond := x.second_lt
  rw [seconds, seconds]
  rcases lt_iff.mp h with hdate | ⟨hdate, hclock⟩
  · have hdays := Date.days_lt_days hx hdate
    omega
  · rw [hdate]
    omega

@[simp] theorem seconds_ofSeconds (t : ℕ) : (ofSeconds t).seconds = t := by
  rw [seconds]
  simp only [ofSeconds, Date.days_ofDays]
  omega

end DateTime

end Calendar

end Onixs
