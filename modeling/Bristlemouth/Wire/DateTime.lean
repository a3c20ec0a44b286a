import Bristlemouth.Lib.Calendar
import Mathlib.Tactic.IntervalCases
import Mathlib.Tactic.Ring

/-!
# UTC date-times

`util.rs`: seconds since the epoch for a date-time, and the date-time of a count of microseconds. Both
loop over the years and the months.
-/

set_option autoImplicit false

namespace Bristlemouth

open Calendar

structure UtcDateTime where
  year : UInt16
  month : UInt8
  day : UInt8
  hour : UInt8
  min : UInt8
  sec : UInt8
  usec : UInt32
deriving DecidableEq

def secsPerMin : Nat := 60
def secsPerHour : Nat := 3600
def secsPerDay : Nat := secsPerHour * 24
def microsecondsPerSecond : Nat := 1000000

def monthDays : List Nat := [31, 28, 31, 30, 31, 30, 31, 31, 30, 31, 30, 31]

def monthDaysLeapYear : List Nat := [31, 29, 31, 30, 31, 30, 31, 31, 30, 31, 30, 31]

def isLeapYear (year : Nat) : Bool :=
  decide (year > 0) && decide (year % 4 = 0) && (!decide (year % 100 = 0) || decide (year % 400 = 0))

def daysInYear (year : Nat) : Nat := if isLeapYear year then 366 else 365

def daysPerMonth (year : Nat) : List Nat := if isLeapYear year then monthDaysLeapYear else monthDays

/-- Seconds since the Unix epoch, in the wrapping 64-bit arithmetic of the source. -/
def utcFromDateTime (year : UInt16) (month day hour minute second : UInt8) : UInt32 :=
  let seconds := UInt64.ofInt ((year.toNat : Int) - 1970) * UInt64.ofNat (secsPerDay * 365)
  let seconds := (List.range' 1970 (year.toNat - 1970)).foldl
    (fun seconds y => if isLeapYear y then seconds + UInt64.ofNat secsPerDay else seconds) seconds
  let leap := isLeapYear year.toNat
  let seconds := (List.range' 1 (min month.toNat (monthDays.length + 1) - 1)).foldl
    (fun seconds m =>
      let days := if m = 2 ∧ leap then 29 else monthDays.getD (m - 1) 0
      seconds + UInt64.ofNat secsPerDay * UInt64.ofNat days) seconds
  let seconds := seconds + UInt64.ofInt ((day.toNat : Int) - 1) * UInt64.ofNat secsPerDay
  let seconds := seconds + hour.toUInt64 * UInt64.ofNat secsPerHour
  let seconds := seconds + minute.toUInt64 * UInt64.ofNat secsPerMin
  let seconds := seconds + second.toUInt64
  seconds.toUInt32

theorem daysInYear_pos (year : Nat) : 0 < daysInYear year := by
  unfold daysInYear
  split <;> omega

/-- The loop over the years: the days that are left, and the year. -/
def yearLoop (days : Nat) (year : UInt16) : Nat × UInt16 :=
  if daysInYear year.toNat ≤ days then yearLoop (days - daysInYear year.toNat) (year + 1)
  else (days, year)
termination_by days
decreasing_by
  have hpos := daysInYear_pos year.toNat
  omega

/-- The loop over the months. An index past the table is a panic. -/
def monthLoop : List Nat → Nat → UInt8 → Option (Nat × UInt8)
  | [], _, _ => none
  | length :: table, days, month =>
    if length ≤ days then monthLoop table (days - length) (month + 1) else some (days, month)

def dateTimeFromUtc (utcUs : UInt64) : Option UtcDateTime :=
  let totalSecs := utcUs.toNat / microsecondsPerSecond
  let (days, year) := yearLoop (totalSecs / secsPerDay) 1970
  (monthLoop (daysPerMonth year.toNat) days 1).map fun (days, month) =>
    let secsRemaining := totalSecs % secsPerDay
    { year
      month
      day := UInt8.ofNat (days + 1)
      hour := UInt8.ofNat (secsRemaining / secsPerHour)
      min := UInt8.ofNat (secsRemaining / secsPerMin % secsPerMin)
      sec := UInt8.ofNat (secsRemaining % secsPerMin)
      usec := UInt32.ofNat (utcUs.toNat % microsecondsPerSecond) }

/-! ### The tables -/

theorem isLeapYear_iff {year : Nat} (h : 0 < year) : isLeapYear year = true ↔ IsLeap year := by
  unfold isLeapYear IsLeap
  simp [h]

theorem daysInYear_eq {year : Nat} (h : 0 < year) : daysInYear year = yearLength year := by
  unfold daysInYear yearLength
  by_cases hleap : IsLeap year
  · rw [if_pos hleap, if_pos ((isLeapYear_iff h).mpr hleap)]
  · rw [if_neg hleap, if_neg (fun hl => hleap ((isLeapYear_iff h).mp hl))]

theorem daysPerMonth_eq {year : Nat} (h : 0 < year) : daysPerMonth year = monthLengths year := by
  unfold daysPerMonth monthLengths
  by_cases hleap : IsLeap year
  · rw [if_pos hleap, if_pos ((isLeapYear_iff h).mpr hleap)]
    rfl
  · rw [if_neg hleap, if_neg (fun hl => hleap ((isLeapYear_iff h).mp hl))]
    rfl

/-! ### The loops -/

/-- The loop over the years finds the year of the day. -/
theorem yearLoop_eq (days : Nat) (year : UInt16) : ∀ n, year.toNat = 1970 + n →
    days + daysOfYears 1970 n < daysOfYears 1970 (65536 - 1970) →
    ∃ n', (yearLoop days year).2.toNat = 1970 + n' ∧
      (yearLoop days year).1 + daysOfYears 1970 n' = days + daysOfYears 1970 n ∧
      (yearLoop days year).1 < yearLength (1970 + n') := by
  induction days, year using yearLoop.induct with
  | case1 days year hle ih =>
    intro n hn hbound
    rw [yearLoop, if_pos hle]
    rw [hn, daysInYear_eq (by omega)] at hle ih
    rw [hn, daysInYear_eq (by omega)]
    have hstep : daysOfYears 1970 (n + 1) = daysOfYears 1970 n + yearLength (1970 + n) := rfl
    -- The year does not wrap: the day lies before the last year's end.
    have hyear : n + 1 < 65536 - 1970 := by
      by_contra hnot
      have hmono := @daysOfYears_mono 1970 _ _ (Nat.le_of_not_lt hnot)
      omega
    have hnext : (year + 1).toNat = 1970 + (n + 1) := by
      rw [UInt16.toNat_add, hn, show (1 : UInt16).toNat = 1 from rfl]
      omega
    obtain ⟨n', hyear', hdays, hlt⟩ := ih (n + 1) hnext (by omega)
    exact ⟨n', hyear', by omega, hlt⟩
  | case2 days year hlt =>
    intro n hn hbound
    rw [yearLoop, if_neg hlt]
    rw [hn, daysInYear_eq (by omega)] at hlt
    exact ⟨n, hn, rfl, by omega⟩

/-- The loop over the months finds the month of the day, whose index is in the table. -/
theorem monthLoop_eq (table : List Nat) : ∀ (days : Nat) (month : UInt8),
    month.toNat + table.length < 256 → days < table.sum →
    ∃ rest month' k, monthLoop table days month = some (rest, month') ∧ k < table.length ∧
      month'.toNat = month.toNat + k ∧ rest < table.getD k 0 ∧ days = (table.take k).sum + rest := by
  induction table with
  | nil =>
    intro days month _ hlt
    exact absurd hlt (Nat.not_lt_zero _)
  | cons length table ih =>
    intro days month hroom hlt
    rw [List.length_cons] at hroom
    rw [List.sum_cons] at hlt
    by_cases hle : length ≤ days
    · have hnext : (month + 1).toNat = month.toNat + 1 := by
        rw [UInt8.toNat_add, show (1 : UInt8).toNat = 1 from rfl]
        omega
      obtain ⟨rest, month', k, hloop, hk, hmonth, hrest, hdays⟩ := ih (days - length) (month + 1)
        (by omega) (by omega)
      refine ⟨rest, month', k + 1, by rw [monthLoop, if_pos hle, hloop], Nat.succ_lt_succ hk, by omega,
        hrest, ?_⟩
      rw [List.take_succ_cons, List.sum_cons]
      omega
    · refine ⟨days, month, 0, by rw [monthLoop, if_neg hle], Nat.succ_pos _, rfl, ?_, ?_⟩
      · exact Nat.lt_of_not_le hle
      · rw [List.take_zero, List.sum_nil, Nat.zero_add]

/-! ### Seconds -/

theorem leapDays_fold (n : Nat) (seconds : UInt64) : (List.range' 1970 n).foldl
    (fun seconds y => if isLeapYear y then seconds + UInt64.ofNat secsPerDay else seconds) seconds
      = seconds + UInt64.ofNat
        (secsPerDay * ((List.range n).filter fun k => IsLeap (1970 + k)).length) := by
  induction n with
  | zero => simp
  | succ n ih =>
    rw [List.range'_1_concat, List.foldl_append, ih, List.range_succ, List.filter_append,
      List.length_append, Nat.mul_add, UInt64.ofNat_add, ← UInt64.add_assoc, List.foldl_cons, List.foldl_nil,
      List.filter_cons]
    by_cases hleap : IsLeap (1970 + n)
    · rw [if_pos ((isLeapYear_iff (by omega)).mpr hleap), if_pos (by simpa using hleap)]
      rfl
    · rw [if_neg fun hl => hleap ((isLeapYear_iff (by omega)).mp hl), if_neg (by simpa using hleap)]
      simp

theorem months_fold {year : Nat} (hyear : 0 < year) (k : Nat) (hk : k ≤ 12) (seconds : UInt64) :
    (List.range' 1 k).foldl
      (fun seconds m =>
        let days := if m = 2 ∧ isLeapYear year then 29 else monthDays.getD (m - 1) 0
        seconds + UInt64.ofNat secsPerDay * UInt64.ofNat days) seconds
      = seconds + UInt64.ofNat (secsPerDay * ((monthLengths year).take k).sum) := by
  induction k with
  | zero => simp
  | succ k ih =>
    have hmonth : (if 1 + k = 2 ∧ isLeapYear year then 29 else monthDays.getD (1 + k - 1) 0)
        = (monthLengths year).getD k 0 := by
      have hleap := isLeapYear_iff hyear
      have hlt : k < 12 := hk
      unfold monthLengths
      by_cases h : IsLeap year
      · rw [hleap.mpr h, if_pos h]
        interval_cases k <;> rfl
      · rw [Bool.eq_false_iff.mpr fun hl => h (hleap.mp hl), if_neg h]
        interval_cases k <;> rfl
    have htake : ((monthLengths year).take (k + 1)).sum
        = ((monthLengths year).take k).sum + (monthLengths year).getD k 0 := by
      have hlt : k < (monthLengths year).length := by
        change k < 12
        omega
      rw [List.take_succ_eq_append_getElem hlt, List.sum_append, List.sum_singleton,
        List.getD_eq_getElem?_getD, List.getElem?_eq_getElem hlt, Option.getD_some]
    rw [List.range'_1_concat, List.foldl_append, ih (by omega), List.foldl_cons, List.foldl_nil]
    simp only [hmonth]
    rw [htake, Nat.mul_add, UInt64.ofNat_add, UInt64.ofNat_mul secsPerDay ((monthLengths year).getD k 0),
      UInt64.add_assoc]

theorem ofInt_natCast (n : Nat) : UInt64.ofInt (n : Int) = UInt64.ofNat n := by
  have hmod : ((n : Int) % 2 ^ 64).toNat = n % 2 ^ 64 := by omega
  rw [UInt64.ofInt, hmod]
  apply UInt64.toNat_inj.mp
  rw [UInt64.toNat_ofNat', UInt64.toNat_ofNat', Nat.mod_mod]

/-- The seconds of a date from 1970 on, which wrap at 2^32. -/
theorem utcFromDateTime_eq {year : UInt16} {month day : UInt8} (hour minute second : UInt8) {n : Nat}
    (hyear : year.toNat = 1970 + n) (hmonth : 1 ≤ month.toNat) (hmonth' : month.toNat ≤ 12)
    (hday : 1 ≤ day.toNat) : utcFromDateTime year month day hour minute second = UInt32.ofNat
      (secsPerDay * (daysOfYears 1970 n + daysOfMonths year.toNat month.toNat + (day.toNat - 1))
        + hour.toNat * secsPerHour + minute.toNat * secsPerMin + second.toNat) := by
  have hyears : UInt64.ofInt ((year.toNat : Int) - 1970) = UInt64.ofNat n := by
    rw [hyear, show ((1970 + n : Nat) : Int) - 1970 = (n : Int) by omega]
    exact ofInt_natCast _
  have hdays : UInt64.ofInt ((day.toNat : Int) - 1) = UInt64.ofNat (day.toNat - 1) := by
    rw [show (day.toNat : Int) - 1 = ((day.toNat - 1 : Nat) : Int) by omega]
    exact ofInt_natCast _
  have hcount : year.toNat - 1970 = n := by omega
  have hmonths : min month.toNat (monthDays.length + 1) - 1 = month.toNat - 1 := by
    change min month.toNat 13 - 1 = _
    rw [Nat.min_eq_left (by omega)]
  have hof : ∀ x : UInt8, x.toUInt64 = UInt64.ofNat x.toNat := fun x => by
    apply UInt64.toNat_inj.mp
    have hlt := x.toNat_lt
    rw [UInt8.toNat_toUInt64, UInt64.toNat_ofNat', Nat.mod_eq_of_lt (by omega)]
  unfold utcFromDateTime
  simp only [hyears, hdays, hcount, hmonths]
  rw [leapDays_fold, months_fold (by omega) _ (by omega), hof hour, hof minute, hof second,
    ← UInt64.ofNat_mul, ← UInt64.ofNat_mul, ← UInt64.ofNat_mul, ← UInt64.ofNat_mul, ← UInt64.ofNat_add,
    ← UInt64.ofNat_add, ← UInt64.ofNat_add, ← UInt64.ofNat_add, ← UInt64.ofNat_add, ← UInt64.ofNat_add,
    UInt64.toUInt32_ofNat']
  refine congrArg UInt32.ofNat ?_
  rw [daysOfYears_eq, daysOfMonths]
  generalize secsPerDay = perDay
  ring

/-- A date-time of the calendar. -/
structure UtcDateTime.IsValid (dt : UtcDateTime) : Prop where
  month : 1 ≤ dt.month.toNat ∧ dt.month.toNat ≤ 12
  day : 1 ≤ dt.day.toNat ∧ dt.day.toNat ≤ monthLength dt.year.toNat dt.month.toNat
  hour : dt.hour.toNat < 24
  min : dt.min.toNat < 60
  sec : dt.sec.toNat < 60
  usec : dt.usec.toNat < 1000000

def UtcDateTime.toUtc (dt : UtcDateTime) : UInt32 :=
  utcFromDateTime dt.year dt.month dt.day dt.hour dt.min dt.sec

/-- The instant lies in a year that 16 bits hold. -/
def YearFits (utcUs : UInt64) : Prop :=
  utcUs.toNat / microsecondsPerSecond / secsPerDay < daysOfYears 1970 (65536 - 1970)

theorem length_le_31 {year k : Nat} (hk : k < 12) : (monthLengths year).getD k 0 ≤ 31 := by
  unfold monthLengths
  split <;> interval_cases k <;> decide

/-- The two loops, on a day before the end of the last year, give the day's year, month and day. -/
theorem dateOfDays {days : Nat} (h : days < daysOfYears 1970 (65536 - 1970)) :
    ∃ n rest month, (yearLoop days 1970).2.toNat = 1970 + n ∧
      monthLoop (daysPerMonth (yearLoop days 1970).2.toNat) (yearLoop days 1970).1 1 = some (rest, month) ∧
      1 ≤ month.toNat ∧ month.toNat ≤ 12 ∧ rest < monthLength (1970 + n) month.toNat ∧ rest < 31 ∧
      daysOfYears 1970 n + daysOfMonths (1970 + n) month.toNat + rest = days := by
  obtain ⟨n, hyear, hdays, hlt⟩ := yearLoop_eq days 1970 0 rfl (by rwa [daysOfYears, Nat.add_zero])
  rw [daysOfYears, Nat.add_zero] at hdays
  obtain ⟨rest, month, k, hloop, hk, hmonth, hrest, hsplit⟩ := monthLoop_eq (monthLengths (1970 + n))
    (yearLoop days 1970).1 1 (by change 1 + 12 < 256; omega) (by rw [sum_monthLengths]; exact hlt)
  have hk : k < 12 := hk
  have hmonth : month.toNat = 1 + k := hmonth
  have hmost := @length_le_31 (1970 + n) k hk
  refine ⟨n, rest, month, hyear, ?_, by omega, by omega, ?_, by omega, ?_⟩
  · rw [hyear, daysPerMonth_eq (by omega)]
    exact hloop
  · rw [monthLength, hmonth, Nat.add_sub_cancel_left]
    exact hrest
  · rw [daysOfMonths, hmonth, Nat.add_sub_cancel_left]
    omega

/-- The fields of a second of the day, and the second they make. -/
theorem timeOfDay {r : Nat} (hr : r < 86400) :
    (UInt8.ofNat (r / secsPerHour)).toNat = r / 3600 ∧
      (UInt8.ofNat (r / secsPerMin % secsPerMin)).toNat = r / 60 % 60 ∧
      (UInt8.ofNat (r % secsPerMin)).toNat = r % 60 ∧
      r / 3600 * 3600 + r / 60 % 60 * 60 + r % 60 = r := by
  refine ⟨?_, ?_, ?_, by omega⟩
  · rw [UInt8.toNat_ofNat', secsPerHour]
    omega
  · rw [UInt8.toNat_ofNat', secsPerMin]
    omega
  · rw [UInt8.toNat_ofNat', secsPerMin]
    omega

/-- The date-time of an instant is one of the calendar, and its seconds are those of the instant. -/
theorem dateTimeFromUtc_spec {utcUs : UInt64} (h : YearFits utcUs) :
    ∃ dt, dateTimeFromUtc utcUs = some dt ∧ dt.IsValid ∧
      dt.toUtc = UInt32.ofNat (utcUs.toNat / microsecondsPerSecond) ∧
      dt.usec.toNat = utcUs.toNat % microsecondsPerSecond := by
  obtain ⟨n, rest, month, hyear, hloop, hlow, hhigh, hlength, hrest, hdays⟩ := dateOfDays h
  have hmod : utcUs.toNat / microsecondsPerSecond % secsPerDay < 86400 := Nat.mod_lt _ (by decide)
  obtain ⟨hhour, hmin, hsec, hsum⟩ := timeOfDay hmod
  have hday : (UInt8.ofNat (rest + 1)).toNat = rest + 1 := by
    rw [UInt8.toNat_ofNat', Nat.mod_eq_of_lt (by omega)]
  have husec : utcUs.toNat % microsecondsPerSecond < 1000000 := Nat.mod_lt _ (by decide)
  have husecNat : (UInt32.ofNat (utcUs.toNat % microsecondsPerSecond)).toNat
      = utcUs.toNat % microsecondsPerSecond := by
    rw [UInt32.toNat_ofNat', Nat.mod_eq_of_lt (by omega)]
  have heq : dateTimeFromUtc utcUs = some
      { year := (yearLoop (utcUs.toNat / microsecondsPerSecond / secsPerDay) 1970).2
        month
        day := UInt8.ofNat (rest + 1)
        hour := UInt8.ofNat (utcUs.toNat / microsecondsPerSecond % secsPerDay / secsPerHour)
        min := UInt8.ofNat (utcUs.toNat / microsecondsPerSecond % secsPerDay / secsPerMin % secsPerMin)
        sec := UInt8.ofNat (utcUs.toNat / microsecondsPerSecond % secsPerDay % secsPerMin)
        usec := UInt32.ofNat (utcUs.toNat % microsecondsPerSecond) } := by
    unfold dateTimeFromUtc
    simp only [hloop, Option.map_some]
  refine ⟨_, heq, ⟨⟨hlow, hhigh⟩, ⟨?_, ?_⟩, ?_, ?_, ?_, ?_⟩, ?_, husecNat⟩
  · dsimp only
    omega
  · dsimp only
    rw [hday, hyear]
    exact hlength
  · dsimp only
    omega
  · dsimp only
    omega
  · dsimp only
    omega
  · dsimp only
    omega
  · rw [UtcDateTime.toUtc]
    dsimp only
    rw [utcFromDateTime_eq _ _ _ hyear hlow hhigh (by omega), hday, hhour, hmin, hsec, hyear,
      Nat.add_sub_cancel, hdays]
    refine congrArg UInt32.ofNat ?_
    rw [Nat.add_assoc, Nat.add_assoc, ← Nat.add_assoc (_ * secsPerHour)]
    rw [show _ * secsPerHour + _ * secsPerMin + _ = _ from hsum]
    exact Nat.div_add_mod _ _

end Bristlemouth
