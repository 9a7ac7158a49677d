import Mathlib.Tactic.IntervalCases
import Mathlib.Tactic.Ring
import Onixs.Common.Calendar
import Onixs.Lib.Types

/-!
# Calendar time

`mktime` and `localtime`, which `kernel/time.c` and `lib/time.c` have in the same words. `mktime` is exact for
every date from 1970 to 2099 (`Onixs.Time.mktime_exact`). `localtime` is not its inverse: it divides the days by 365
before it takes off those of the leap years, divides what is left by 366 in a leap year, and starts the table
of the months one day early for January and February of the other years; it is right on the remaining dates
(`Onixs.Time.localtime_iff`).
-/

namespace Onixs

open Calendar

namespace Time

/-- The seconds of a minute. -/
def minute : ℤ := 60

/-- The seconds of an hour. -/
def hour : ℤ := 60 * minute

/-- The seconds of a day. -/
def day : ℤ := 24 * hour

/-- The seconds of 365 days. -/
def year : ℤ := 365 * day

/-- The table `month`: the days of a leap year before each month, with nothing for month 0. -/
def monthTable : List ℤ :=
  [0, 0, 31, 31 + 29, 31 + 29 + 31, 31 + 29 + 31 + 30, 31 + 29 + 31 + 30 + 31, 31 + 29 + 31 + 30 + 31 + 30,
    31 + 29 + 31 + 30 + 31 + 30 + 31, 31 + 29 + 31 + 30 + 31 + 30 + 31 + 31,
    31 + 29 + 31 + 30 + 31 + 30 + 31 + 31 + 30, 31 + 29 + 31 + 30 + 31 + 30 + 31 + 31 + 30 + 31,
    31 + 29 + 31 + 30 + 31 + 30 + 31 + 31 + 30 + 31 + 30]

/-- `month[mon]`. -/
def month (mon : ℤ) : Option ℤ := if 0 ≤ mon then monthTable[mon.toNat]? else none

/-- `tm`, without `tm_isdst`, which neither function uses. -/
structure Tm where
  /-- `tm_sec`. -/
  sec : ℤ
  /-- `tm_min`. -/
  min : ℤ
  /-- `tm_hour`. -/
  hour : ℤ
  /-- `tm_mday`, the day of the month. -/
  mday : ℤ
  /-- `tm_mon`. -/
  mon : ℤ
  /-- `tm_year`, the years since 1900. -/
  year : ℤ
  /-- `tm_wday`, the day of the week. -/
  wday : ℤ
  /-- `tm_yday`, the day of the year. -/
  yday : ℤ
  deriving DecidableEq

/-- `res += x` for a `time_t` and an `int`. A product of two `int` that wraps leaves the same sum. -/
def addTime (res : ℕ) (x : ℤ) : ℕ := ((res + x) % 4294967296).toNat

/-- `elapsed_leap_years`. -/
def elapsedLeapYears (year : ℤ) : ℤ :=
  let result := 0
  let result := result + (year - 1).tdiv 4
  let result := result - (year - 1).tdiv 100
  let result := result + (year + 299).tdiv 400
  let result := result - (1970 - 1900 : ℤ).tdiv 4
  result

/-- `is_leap_year`. -/
def isLeapYear (year : ℤ) : Bool :=
  (year.tmod 4 == 0 && year.tmod 100 != 0) || (year + 1900).tmod 400 == 0

/-- The loop of `localtime`, with the number of months left. -/
def localtimeLoop (offset yday : ℤ) : ℕ → ℤ → Option ℤ
  | 0, mon => some mon
  | n + 1, mon => do
    let before ← month mon
    if before - offset > yday then return mon
    localtimeLoop offset yday n (mon + 1)

/-- `localtime`. -/
def localtime (stamp : ℕ) : Option Tm := do
  let sec := stamp % 60
  let remain := stamp / 60
  let min := remain % 60
  let remain := remain / 60
  let hour := remain % 24
  let days := remain / 24
  let wday := (days + 4) % 7
  let years : ℤ := ↑(days / 365 + 70)
  let offset : ℤ := if isLeapYear years then 0 else 1
  let days := addTime days (-elapsedLeapYears years)
  let yday : ℤ := days % (366 - offset)
  let mon ← localtimeLoop offset yday 12 1
  let before ← month (mon - 1)
  return { sec := sec, min := min, hour := hour, mday := yday - before + offset + 1, mon := mon - 1, year := years,
           wday := wday, yday := yday }

/-- `mktime`. -/
def mktime (time : Tm) : Option ℕ := do
  let years := if time.year ≥ 70 then time.year - 70 else time.year - 70 + 100
  let res := addTime 0 (year * years)
  let res := addTime res (day * (years + 1).tdiv 4)
  let before ← month time.mon
  let res := addTime res (before * day)
  let res := if time.mon > 2 ∧ (years + 2).tmod 4 ≠ 0 then addTime res (-day) else res
  let res := addTime res (day * (time.mday - 1))
  let res := addTime res (hour * time.hour)
  let res := addTime res (minute * time.min)
  return addTime res time.sec

/-- The fields give a date and time, the years since 1900 or, from 2000 to 2069, the last two digits of the year. -/
def Tm.Gives (time : Tm) (x : DateTime) : Prop :=
  time.sec = x.second ∧ time.min = x.minute ∧ time.hour = x.hour ∧ time.mday = x.day ∧ time.mon = x.month ∧
    (time.year = x.year - 1900 ∨ 2000 ≤ x.year ∧ x.year < 2070 ∧ time.year = x.year - 2000)

/-- The fields show a date and time with its day of the week. -/
def Tm.Shows (time : Tm) (x : DateTime) : Prop :=
  time.sec = x.second ∧ time.min = x.minute ∧ time.hour = x.hour ∧ time.mday = x.day ∧ time.mon = x.month ∧
    time.year = x.year - 1900 ∧ time.wday = x.wday

section Exact

theorem Tm.Shows.gives {time : Tm} {x : DateTime} (h : time.Shows x) : time.Gives x := by
  obtain ⟨hsec, hmin, hhour, hmday, hmon, hyear, -⟩ := h
  exact ⟨hsec, hmin, hhour, hmday, hmon, .inl hyear⟩

theorem minute_eq : minute = 60 := rfl

theorem hour_eq : hour = 3600 := rfl

theorem day_eq : day = 86400 := rfl

theorem year_eq : year = 31536000 := rfl

/-- A sum that does not wrap. -/
theorem addTime_eq {res : ℕ} {x : ℤ} {n : ℕ} (h : res + x = n) (hn : n < 4294967296) : addTime res x = n := by
  rw [addTime, h]
  omega

/-- **The table of the months**, which is about leap years. -/
theorem month_eq {m : ℕ} (y : ℕ) (h : 1 ≤ m) (h' : m ≤ 12) :
    month m = some ((daysBeforeMonth y m + if 2 < m ∧ ¬IsLeap y then 1 else 0 : ℕ) : ℤ) := by
  interval_cases m <;>
    simp [month, monthTable, daysBeforeMonth, Finset.sum_Ico_succ_top, monthLength] <;>
    split_ifs <;> simp

/-- The year since 1970 that `mktime` makes of the field. -/
theorem Tm.Gives.years {time : Tm} {x : DateTime} (h : time.Gives x) (hx : 1970 ≤ x.year) :
    (if time.year ≥ 70 then time.year - 70 else time.year - 70 + 100) = ((x.year - 1970 : ℕ) : ℤ) := by
  obtain ⟨-, -, -, -, -, hyear⟩ := h
  split_ifs <;> omega

/-- The correction of the table. -/
theorem leap_correction {x : DateTime} (hx : 1970 ≤ x.year) (hx' : x.year < 2100) :
    ((x.month : ℤ) > 2 ∧ (((x.year - 1970 : ℕ) : ℤ) + 2).tmod 4 ≠ 0) ↔ 2 < x.month ∧ ¬IsLeap x.year := by
  rw [isLeap_iff hx hx', Int.tmod_eq_emod_of_nonneg (by omega)]
  omega

/-- **The sum of `mktime`**, of a year `y` since 1970 before 2100: with `b` days in the months that are over, of which
the table has `c` too many, and `d` days of this month that are over. -/
theorem mktime_sum {time : Tm} {y b c d h m s : ℕ}
    (hyears : (if time.year ≥ 70 then time.year - 70 else time.year - 70 + 100) = (y : ℤ))
    (hmonth : month time.mon = some ((b + c : ℕ) : ℤ))
    (hc : c = if time.mon > 2 ∧ ((y : ℤ) + 2).tmod 4 ≠ 0 then 1 else 0)
    (hmday : time.mday = (d : ℤ) + 1) (hhour : time.hour = h) (hmin : time.min = m) (hsec : time.sec = s)
    (hy : y < 130) (hb : b + d < 366) (hh : h < 24) (hm : m < 60) (hs : s < 60) :
    mktime time = some (31536000 * y + 86400 * ((y + 1) / 4) + 86400 * b + 86400 * d + 3600 * h + 60 * m + s) := by
  rw [mktime, hyears, hmonth, hmday, hhour, hmin, hsec, year_eq, day_eq, hour_eq, minute_eq]
  simp only [Option.bind_eq_bind, Option.bind_some, Option.pure_def]
  -- the years, with their leap days
  have h₁ : addTime 0 (31536000 * y) = 31536000 * y := addTime_eq (by omega) (by omega)
  have h₂ : addTime (31536000 * y) (86400 * ((y : ℤ) + 1).tdiv 4) = 31536000 * y + 86400 * ((y + 1) / 4) :=
    addTime_eq (by rw [Int.tdiv_eq_ediv_of_nonneg (by omega)]; omega) (by omega)
  -- the months, by the table and its correction
  have h₃ : addTime (31536000 * y + 86400 * ((y + 1) / 4)) (((b + c : ℕ) : ℤ) * 86400) =
      31536000 * y + 86400 * ((y + 1) / 4) + 86400 * (b + c) :=
    addTime_eq (by omega) (by split_ifs at hc <;> omega)
  have h₄ : (if time.mon > 2 ∧ ((y : ℤ) + 2).tmod 4 ≠ 0 then
      addTime (31536000 * y + 86400 * ((y + 1) / 4) + 86400 * (b + c)) (-86400)
      else 31536000 * y + 86400 * ((y + 1) / 4) + 86400 * (b + c)) =
      31536000 * y + 86400 * ((y + 1) / 4) + 86400 * b := by
    split_ifs at hc ⊢
    · exact addTime_eq (by omega) (by omega)
    · omega
  -- the day and the time of day
  have h₅ : addTime (31536000 * y + 86400 * ((y + 1) / 4) + 86400 * b) (86400 * ((d : ℤ) + 1 - 1)) =
      31536000 * y + 86400 * ((y + 1) / 4) + 86400 * b + 86400 * d := addTime_eq (by omega) (by omega)
  have h₆ : addTime (31536000 * y + 86400 * ((y + 1) / 4) + 86400 * b + 86400 * d) (3600 * h) =
      31536000 * y + 86400 * ((y + 1) / 4) + 86400 * b + 86400 * d + 3600 * h := addTime_eq (by omega) (by omega)
  have h₇ : addTime (31536000 * y + 86400 * ((y + 1) / 4) + 86400 * b + 86400 * d + 3600 * h) (60 * m) =
      31536000 * y + 86400 * ((y + 1) / 4) + 86400 * b + 86400 * d + 3600 * h + 60 * m :=
    addTime_eq (by omega) (by omega)
  rw [h₁, h₂, h₃, h₄, h₅, h₆, h₇]
  exact congrArg some (addTime_eq (by omega) (by omega))

/-- **`mktime` of a date** is the number of its seconds. -/
theorem mktime_eq {time : Tm} {x : DateTime} (hx : 1970 ≤ x.year) (hx' : x.year < 2100) (h : time.Gives x) :
    mktime time = some x.seconds := by
  have hyears := h.years hx
  obtain ⟨hsec, hmin, hhour, hmday, hmon, -⟩ := h
  have hdays : x.days = 365 * (x.year - 1970) + (x.year - 1969) / 4 + daysBeforeMonth x.year x.month
      + (x.day - 1) := by
    rw [Date.days, Date.yday, daysBeforeYear_eq hx, leapYearsBefore_eq hx hx'.le, ← Nat.add_assoc]
  have hyday := x.yday_lt_yearLength
  have hlength : yearLength x.year ≤ 366 := by
    unfold yearLength
    split_ifs <;> decide
  have hd := x.day_pos
  rw [Date.yday] at hyday
  have hsum := mktime_sum (d := x.day - 1) hyears ((congrArg month hmon).trans (month_eq x.year x.month_pos x.month_le))
    (by simp only [hmon, leap_correction hx hx']) (by omega) hhour hmin hsec (by omega) (by omega) x.hour_lt
    x.minute_lt x.second_lt
  have hleap : (x.year - 1970 + 1) / 4 = (x.year - 1969) / 4 := by omega
  rw [hsum, DateTime.seconds, hdays, hleap]
  refine congrArg some ?_
  ring

/-- **`mktime` is exact** for every date and time from 1970 to 2099, however the year is given, so that it keeps their
order. -/
theorem mktime_exact {time : Tm} {x : DateTime} (hx : 1970 ≤ x.year) (hx' : x.year < 2100) (h : time.Gives x) :
    mktime time = some x.seconds ∧ x.seconds < 4294967296 ∧
      ∀ (time' : Tm) (y : DateTime), y.year < 2100 → time'.Gives y → x < y →
        ∃ r r', mktime time = some r ∧ mktime time' = some r' ∧ r < r' := by
  have hr := mktime_eq hx hx' h
  have hbound := (DateTime.seconds_lt_iff hx).mpr hx'
  refine ⟨hr, by omega, fun time' y hy' h' hlt => ?_⟩
  have hy : 1970 ≤ y.year := hx.trans (DateTime.year_le_year hlt)
  exact ⟨x.seconds, y.seconds, hr, mktime_eq hy hy' h', DateTime.seconds_lt_seconds hx hlt⟩

/-- The last second of 2099. -/
def lastSecond : DateTime where
  year := 2099
  month := 12
  day := 31
  month_pos := Nat.le_of_ble_eq_true rfl
  month_le := Nat.le_of_ble_eq_true rfl
  day_pos := Nat.le_of_ble_eq_true rfl
  day_le := Nat.le_of_ble_eq_true rfl
  hour := 23
  minute := 59
  second := 59
  hour_lt := Nat.le_of_ble_eq_true rfl
  minute_lt := Nat.le_of_ble_eq_true rfl
  second_lt := Nat.le_of_ble_eq_true rfl

theorem mktime_exact_last :
    mktime { sec := 59, min := 59, hour := 23, mday := 31, mon := 12, year := 199, wday := 4, yday := 364 }
      = some lastSecond.seconds :=
  (mktime_exact (x := lastSecond) (by decide) (by decide) ⟨rfl, rfl, rfl, rfl, rfl, .inl rfl⟩).1

end Exact

section Inverse

variable {x : DateTime} {offset yday : ℤ}

theorem elapsedLeapYears_eq {y : ℕ} (h : 1970 ≤ y) (h' : y ≤ 2100) :
    elapsedLeapYears ((y : ℤ) - 1900) = leapYearsBefore y := by
  rw [elapsedLeapYears, leapYearsBefore_eq h h', Int.tdiv_eq_ediv_of_nonneg (by omega),
    Int.tdiv_eq_ediv_of_nonneg (by omega), Int.tdiv_eq_ediv_of_nonneg (by omega),
    Int.tdiv_eq_ediv_of_nonneg (by omega)]
  omega

theorem isLeapYear_iff {y : ℕ} (h : 1970 ≤ y) : isLeapYear ((y : ℤ) - 1900) = true ↔ IsLeap y := by
  simp only [isLeapYear, Bool.or_eq_true, Bool.and_eq_true, beq_iff_eq, bne_iff_ne, ne_eq]
  rw [IsLeap, Int.tmod_eq_emod_of_nonneg (by omega), Int.tmod_eq_emod_of_nonneg (by omega),
    Int.tmod_eq_emod_of_nonneg (by omega)]
  omega

/-- The loop passes the months that have begun. -/
theorem localtimeLoop_skip {j n : ℕ} {mon : ℤ}
    (h : ∀ i < j, ∃ before, month (mon + i) = some before ∧ before - offset ≤ yday) :
    localtimeLoop offset yday (n + j) mon = localtimeLoop offset yday n (mon + j) := by
  induction j generalizing mon with
  | zero => simp
  | succ j ih =>
    obtain ⟨before, hmonth, hle⟩ := h 0 (Nat.succ_pos j)
    have hskip : localtimeLoop offset yday (n + j) (mon + 1) = localtimeLoop offset yday n (mon + 1 + j) := ih fun i hi => by
      have hi := h (i + 1) (Nat.succ_lt_succ hi)
      rwa [Nat.cast_succ, add_comm (i : ℤ), ← add_assoc] at hi
    rw [Nat.cast_zero, add_zero] at hmonth
    rw [← Nat.add_assoc, localtimeLoop, hmonth, Option.bind_eq_bind, Option.bind_some, if_neg (not_lt.mpr hle), hskip,
      Nat.cast_succ]
    ring_nf

/-- **The loop stops behind the month** that the day of the year is in. -/
theorem localtimeLoop_eq {y m : ℕ} {d : ℕ} (hleap : ¬IsLeap y) (hm : 3 ≤ m) (hm' : m ≤ 12)
    (hd : daysBeforeMonth y m ≤ d) (hd' : d < daysBeforeMonth y (m + 1)) :
    localtimeLoop 1 d 12 1 = some ((m : ℤ) + 1) := by
  obtain ⟨n, hn⟩ := Nat.exists_eq_add_of_le hm'
  rw [hn, Nat.add_comm m, localtimeLoop_skip]
  · cases n with
    | zero => rw [localtimeLoop, add_comm]
    | succ n =>
      have hmonth := month_eq y (m := m + 1) (by omega) (by omega)
      rw [if_pos ⟨by omega, hleap⟩] at hmonth
      rw [localtimeLoop, add_comm, ← Nat.cast_succ, hmonth, Option.bind_eq_bind, Option.bind_some, if_pos (by omega)]
      rfl
  · intro i hi
    have hmonth := month_eq y (m := 1 + i) (by omega) (by omega)
    have hmono := daysBeforeMonth_mono y (show 1 + i ≤ m by omega)
    refine ⟨_, by exact_mod_cast hmonth, ?_⟩
    split_ifs <;> omega

/-- **The year that `localtime` gives.** -/
theorem year_of_localtime {time : Tm} (h : localtime x.seconds = some time) : time.year = ((x.days / 365 + 70 : ℕ) : ℤ) := by
  rw [localtime] at h
  simp only [Option.bind_eq_bind, Option.bind_eq_some_iff, Option.pure_def, Option.some.injEq] at h
  obtain ⟨mon, -, before, -, rfl⟩ := h
  rw [x.seconds_days]

/-- **`localtime` where the year is right**: the rest depends on the month that the loop finds. -/
theorem localtime_of_year (hx : 1970 ≤ x.year) (hx' : x.year < 2100) (h : leapYearsBefore x.year + x.yday < 365)
    (hoffset : offset = 366 - yearLength x.year)
    (hyday : yday = ((365 * (x.year - 1970) + x.yday) % yearLength x.year : ℕ)) :
    localtime x.seconds = (localtimeLoop offset yday 12 1).bind fun mon => (month (mon - 1)).bind fun before =>
      some { sec := x.second, min := x.minute, hour := x.hour, mday := yday - before + offset + 1, mon := mon - 1,
             year := x.year - 1900, wday := x.wday, yday := yday } := by
  have hdays : x.days = 365 * (x.year - 1970) + leapYearsBefore x.year + x.yday := by
    rw [Date.days, daysBeforeYear_eq hx]
  have hyears : ((x.days / 365 + 70 : ℕ) : ℤ) = x.year - 1900 := by omega
  have hrest : addTime x.days (-leapYearsBefore x.year) = 365 * (x.year - 1970) + x.yday :=
    addTime_eq (by omega) (by omega)
  have hleap : (if isLeapYear ((x.year : ℤ) - 1900) = true then 0 else 1) = offset := by
    rw [hoffset, yearLength]
    simp only [isLeapYear_iff hx]
    split_ifs <;> rfl
  have hlength : ((365 * (x.year - 1970) + x.yday : ℕ) : ℤ) % (366 - offset) = yday := by
    rw [hoffset, hyday, sub_sub_cancel, Int.natCast_mod]
  rw [localtime, x.seconds_days, x.seconds_second, x.seconds_minute, x.seconds_hour, hyears, elapsedLeapYears_eq hx hx'.le,
    hrest, hleap, hlength]
  rfl

/-- In a leap year the day of the year is not that of the rest. -/
theorem yday_ne_of_isLeap (hx : 1970 ≤ x.year) (hx' : x.year < 2100) (hleap : IsLeap x.year) :
    (365 * (x.year - 1970) + x.yday) % yearLength x.year ≠ x.yday := by
  have hlt := x.yday_lt_yearLength
  rw [yearLength, if_pos hleap] at hlt ⊢
  rw [isLeap_iff hx hx'] at hleap
  omega

/-- In another year it is. -/
theorem yday_eq_of_not_isLeap (hleap : ¬IsLeap x.year) :
    (365 * (x.year - 1970) + x.yday) % yearLength x.year = x.yday := by
  have hlt := x.yday_lt_yearLength
  rw [yearLength, if_neg hleap] at hlt ⊢
  omega

/-- What `localtime` shows is right only where the claim of the months is. -/
theorem localtime_shows {time : Tm} (hx : 1970 ≤ x.year) (hx' : x.year < 2100)
    (h : localtime x.seconds = some time) (hshows : time.Shows x) :
    ¬IsLeap x.year ∧ 3 ≤ x.month ∧ leapYearsBefore x.year + x.yday < 365 := by
  obtain ⟨-, -, -, hmday, hmon, hyear, -⟩ := hshows
  have hdays : x.days = 365 * (x.year - 1970) + leapYearsBefore x.year + x.yday := by
    rw [Date.days, daysBeforeYear_eq hx]
  have hlt : leapYearsBefore x.year + x.yday < 365 := by
    have hyears := (year_of_localtime h).symm.trans hyear
    omega
  rw [localtime_of_year hx hx' hlt rfl rfl] at h
  simp only [Option.bind_eq_some_iff, Option.some.injEq] at h
  obtain ⟨mon, -, before, hbefore, rfl⟩ := h
  simp only at hmday hmon
  have hmonth := month_eq x.year x.month_pos x.month_le
  have hday := x.day_pos
  have hyday : x.yday = daysBeforeMonth x.year x.month + (x.day - 1) := rfl
  rw [hmon] at hbefore
  have hb := Option.some.inj (hbefore.symm.trans hmonth)
  by_cases hleap : IsLeap x.year
  · -- the table is right and the day of the year is not
    have hne := yday_ne_of_isLeap hx hx' hleap
    rw [if_neg (fun hand => hand.2 hleap)] at hb
    rw [yearLength, if_pos hleap] at hmday hne
    omega
  · rw [yday_eq_of_not_isLeap hleap, yearLength, if_neg hleap] at hmday
    refine ⟨hleap, ?_, hlt⟩
    by_contra hmonth'
    rw [if_neg (by omega)] at hb
    omega

/-- There it is right. -/
theorem localtime_of_shows (hx : 1970 ≤ x.year) (hx' : x.year < 2100) (hleap : ¬IsLeap x.year) (hmonth : 3 ≤ x.month)
    (h : leapYearsBefore x.year + x.yday < 365) : ∃ time, localtime x.seconds = some time ∧ time.Shows x := by
  have hbefore := month_eq x.year x.month_pos x.month_le
  have hday := x.day_pos
  have hyday : x.yday = daysBeforeMonth x.year x.month + (x.day - 1) := rfl
  have hloop := localtimeLoop_eq hleap hmonth x.month_le (Nat.le_of_lt_succ (by omega)) x.yday_lt
  rw [if_pos ⟨hmonth, hleap⟩] at hbefore
  have hoffset : (1 : ℤ) = 366 - yearLength x.year := by
    rw [yearLength, if_neg hleap]
    rfl
  rw [localtime_of_year hx hx' h hoffset (congrArg Nat.cast (yday_eq_of_not_isLeap hleap).symm), hloop, Option.bind_some,
    add_sub_cancel_right, hbefore, Option.bind_some]
  refine ⟨_, rfl, rfl, rfl, rfl, ?_, rfl, rfl, rfl⟩
  simp only
  omega

/-- **`localtime` is right**, and `mktime` its inverse, for the dates from March on of the years that are no leap
years, but those at the end of the year that the leap days before it push into the next. -/
theorem localtime_iff {t : ℕ} (ht : t < 4102444800) :
    (∃ time, localtime t = some time ∧ time.Shows (DateTime.ofSeconds t) ∧ mktime time = some t) ↔
      ¬IsLeap (DateTime.ofSeconds t).year ∧ 3 ≤ (DateTime.ofSeconds t).month ∧
        leapYearsBefore (DateTime.ofSeconds t).year + (DateTime.ofSeconds t).yday < 365 := by
  have hx : 1970 ≤ (DateTime.ofSeconds t).year := Date.le_year_ofDays _
  have hx' : (DateTime.ofSeconds t).year < 2100 := by
    rwa [← DateTime.seconds_lt_iff hx, DateTime.seconds_ofSeconds]
  have hseconds := DateTime.seconds_ofSeconds t
  constructor
  · rintro ⟨time, htime, hshows, -⟩
    rw [← hseconds] at htime
    exact localtime_shows hx hx' htime hshows
  · rintro ⟨hleap, hmonth, hlt⟩
    obtain ⟨time, htime, hshows⟩ := localtime_of_shows hx hx' hleap hmonth hlt
    have hback := mktime_eq hx hx' hshows.gives
    rw [hseconds] at htime hback
    exact ⟨time, htime, hshows, hback⟩

/-- 1970-03-01. -/
def firstMarch : Date where
  year := 1970
  month := 3
  day := 1
  month_pos := Nat.le_of_ble_eq_true rfl
  month_le := Nat.le_of_ble_eq_true rfl
  day_pos := Nat.le_of_ble_eq_true rfl
  day_le := Nat.le_of_ble_eq_true rfl

theorem days_firstMarch : firstMarch.days = 59 := by decide

theorem localtime_iff_march :
    ∃ time, localtime 5097600 = some time ∧ time.Shows (DateTime.ofSeconds 5097600) ∧ mktime time = some 5097600 := by
  have hdate : (DateTime.ofSeconds 5097600).toDate = firstMarch := by
    have hday : 5097600 / 86400 = firstMarch.days := days_firstMarch.symm
    rw [DateTime.toDate_ofSeconds, hday, Date.ofDays_days (Nat.le_refl 1970)]
  refine (localtime_iff (by decide)).mpr ?_
  rw [hdate]
  decide

/-- **The wrong date**: 1970-01-01 becomes the second of January. -/
theorem localtime_wrong :
    ¬∃ time, localtime 0 = some time ∧ time.Shows (DateTime.ofSeconds 0) ∧ mktime time = some 0 := by
  rintro ⟨time, htime, ⟨-, -, -, hmday, -⟩, -⟩
  have hsecond : localtime 0 = some
      { sec := 0, min := 0, hour := 0, mday := 2, mon := 1, year := 70, wday := 4, yday := 0 } := by decide
  obtain rfl := Option.some.inj (htime.symm.trans hsecond)
  exact absurd hmday (by decide)

end Inverse

end Time

end Onixs
