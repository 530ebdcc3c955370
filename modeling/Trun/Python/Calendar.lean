import Mathlib.Data.Int.Basic
import Mathlib.Data.Int.ConditionallyCompleteOrder
import Mathlib.Order.SuccPred.Basic
import Mathlib.Order.Monotone.Basic
import Mathlib.Order.Interval.Set.Basic
import Mathlib.Tactic.IntervalCases
import Mathlib.Data.Int.SuccPred

/-!
# The calendar

`datetime.date` counts days from 1 January of year 1.  A date is its ordinal; the year, the
month, the day and the ISO week are computed as the Python implementation does.
-/

namespace Trun.Calendar

def isLeap (year : ℤ) : Bool := year % 4 = 0 && (year % 100 ≠ 0 || year % 400 = 0)

def leapDay (year : ℤ) : ℤ := if isLeap year then 1 else 0

def daysBeforeYear (year : ℤ) : ℤ :=
  (year - 1) * 365 + (year - 1) / 4 - (year - 1) / 100 + (year - 1) / 400

/-- The days before a month in a year that is not leap. -/
def daysBeforeMonthTable (month : ℤ) : ℤ :=
  if month = 1 then 0 else if month = 2 then 31 else if month = 3 then 59
  else if month = 4 then 90 else if month = 5 then 120 else if month = 6 then 151
  else if month = 7 then 181 else if month = 8 then 212 else if month = 9 then 243
  else if month = 10 then 273 else if month = 11 then 304 else if month = 12 then 334 else 365

def daysBeforeMonth (year month : ℤ) : ℤ :=
  daysBeforeMonthTable month + if 2 < month then leapDay year else 0

def daysInMonth (year month : ℤ) : ℤ :=
  daysBeforeMonth year (month + 1) - daysBeforeMonth year month

def toOrdinal (year month day : ℤ) : ℤ :=
  daysBeforeYear year + daysBeforeMonth year month + day

/-- The year of an ordinal: cycles of 400, 100 and 4 years, then single years. -/
def yearOf (ordinal : ℤ) : ℤ :=
  let n := ordinal - 1
  let n400 := n / 146097
  let n100 := n % 146097 / 36524
  let n4 := n % 146097 % 36524 / 1461
  let n1 := n % 146097 % 36524 % 1461 / 365
  let year := n400 * 400 + n100 * 100 + n4 * 4 + n1 + 1
  if n1 = 4 ∨ n100 = 4 then year - 1 else year

/-- The day of the year, from 0. -/
def dayOfYear (ordinal : ℤ) : ℤ := ordinal - 1 - daysBeforeYear (yearOf ordinal)

/-- The month is estimated, and corrected where the estimate is too large. -/
def monthOf (ordinal : ℤ) : ℤ :=
  let month := (dayOfYear ordinal + 50) / 32
  if dayOfYear ordinal < daysBeforeMonth (yearOf ordinal) month then month - 1 else month

def dayOf (ordinal : ℤ) : ℤ :=
  dayOfYear ordinal - daysBeforeMonth (yearOf ordinal) (monthOf ordinal) + 1

/-- The Monday that starts week 1: the week of the first Thursday. -/
def isoWeek1Monday (year : ℤ) : ℤ :=
  let firstday := toOrdinal year 1 1
  let firstweekday := (firstday + 6) % 7
  let week1monday := firstday - firstweekday
  if 3 < firstweekday then week1monday + 7 else week1monday

/-- `isocalendar`: the year, the week and the day of the week. -/
def isocalendar (ordinal : ℤ) : ℤ × ℤ × ℤ :=
  let year := yearOf ordinal
  let days := ordinal - isoWeek1Monday year
  if days / 7 < 0 then
    let days := ordinal - isoWeek1Monday (year - 1)
    (year - 1, days / 7 + 1, days % 7 + 1)
  else if 52 ≤ days / 7 ∧ isoWeek1Monday (year + 1) ≤ ordinal then (year + 1, 1, days % 7 + 1)
  else (year, days / 7 + 1, days % 7 + 1)

/-! ## Years -/

theorem daysBeforeYear_succ (year : ℤ) :
    daysBeforeYear (year + 1) = daysBeforeYear year + 365 + leapDay year := by
  unfold daysBeforeYear leapDay isLeap
  simp only [Bool.and_eq_true, Bool.or_eq_true, decide_eq_true_eq, ne_eq]
  split <;> omega

theorem leapDay_cases (year : ℤ) : leapDay year = 0 ∨ leapDay year = 1 := by
  unfold leapDay
  split
  · exact .inr rfl
  · exact .inl rfl

theorem strictMono_daysBeforeYear : StrictMono daysBeforeYear := by
  apply strictMono_of_lt_succ
  intro year _
  change daysBeforeYear year < daysBeforeYear (year + 1)
  rw [daysBeforeYear_succ]
  rcases leapDay_cases year with h | h <;> omega

/-- A year by its place in the cycles of 400, 100 and 4 years. -/
structure Cycles (year n400 n100 n4 n1 : ℤ) : Prop where
  year : year = n400 * 400 + n100 * 100 + n4 * 4 + n1 + 1
  n100 : 0 ≤ n100 ∧ n100 ≤ 3
  n4 : 0 ≤ n4 ∧ n4 ≤ 24
  n1 : 0 ≤ n1 ∧ n1 ≤ 3

theorem Cycles.daysBeforeYear {year n400 n100 n4 n1 : ℤ} (hcycles : Cycles year n400 n100 n4 n1) :
    daysBeforeYear year = n400 * 146097 + n100 * 36524 + n4 * 1461 + n1 * 365 := by
  obtain ⟨hyear, hn100, hn4, hn1⟩ := hcycles
  have hquot4 : (year - 1) / 4 = n400 * 100 + n100 * 25 + n4 := by omega
  have hquot100 : (year - 1) / 100 = n400 * 4 + n100 := by omega
  have hquot400 : (year - 1) / 400 = n400 := by omega
  unfold Calendar.daysBeforeYear
  rw [hquot4, hquot100, hquot400]
  omega

theorem Cycles.leapDay {year n400 n100 n4 : ℤ} (hcycles : Cycles year n400 n100 n4 3)
    (hleap : n4 ≤ 23 ∨ n100 = 3) : leapDay year = 1 := by
  obtain ⟨hyear, hn100, hn4, -⟩ := hcycles
  have hmod4 : year % 4 = 0 := by omega
  have hmod : year % 100 ≠ 0 ∨ year % 400 = 0 := by omega
  have hyearIsLeap : isLeap year = true := by
    rw [isLeap, Bool.and_eq_true, Bool.or_eq_true]
    exact ⟨decide_eq_true hmod4, hmod.imp decide_eq_true decide_eq_true⟩
  rw [Calendar.leapDay, if_pos hyearIsLeap]

/-- The year of an ordinal, and how many of its days have gone. -/
theorem exists_cycles (ordinal : ℤ) : ∃ n400 n100 n4 n1,
    Cycles (yearOf ordinal) n400 n100 n4 n1 ∧
      ∃ day, ordinal - 1 = n400 * 146097 + n100 * 36524 + n4 * 1461 + n1 * 365 + day ∧ 0 ≤ day ∧
        (day < 365 ∨ day = 365 ∧ n1 = 3 ∧ (n4 ≤ 23 ∨ n100 = 3)) := by
  unfold yearOf
  dsimp only
  set n := ordinal - 1 with hn
  have hn400 : n = n / 146097 * 146097 + n % 146097 := by omega
  have hn100 : n % 146097 = n % 146097 / 36524 * 36524 + n % 146097 % 36524 := by omega
  have hn4 : n % 146097 % 36524 =
      n % 146097 % 36524 / 1461 * 1461 + n % 146097 % 36524 % 1461 := by omega
  have hn1 : n % 146097 % 36524 % 1461 = n % 146097 % 36524 % 1461 / 365 * 365 +
      n % 146097 % 36524 % 1461 % 365 := by omega
  have h400 : 0 ≤ n % 146097 ∧ n % 146097 < 146097 := by omega
  have h100 : 0 ≤ n % 146097 % 36524 ∧ n % 146097 % 36524 < 36524 := by omega
  have h4 : 0 ≤ n % 146097 % 36524 % 1461 ∧ n % 146097 % 36524 % 1461 < 1461 := by omega
  have h1 : 0 ≤ n % 146097 % 36524 % 1461 % 365 ∧ n % 146097 % 36524 % 1461 % 365 < 365 := by
    omega
  generalize n / 146097 = n400 at *
  generalize n % 146097 = r400 at *
  generalize r400 / 36524 = n100 at *
  generalize r400 % 36524 = r100 at *
  generalize r100 / 1461 = n4 at *
  generalize r100 % 1461 = r4 at *
  generalize r4 / 365 = n1 at *
  generalize r4 % 365 = day at *
  by_cases hlast : n1 = 4 ∨ n100 = 4
  · rw [if_pos hlast]
    by_cases hcentury : n100 = 4
    · -- The last day of 400 years.
      refine ⟨n400, 3, 24, 3, ⟨by omega, by omega, by omega, by omega⟩, 365, by omega, by omega, ?_⟩
      exact .inr ⟨rfl, rfl, .inr rfl⟩
    · refine ⟨n400, n100, n4, 3, ⟨by omega, by omega, by omega, by omega⟩, 365, by omega, by omega,
        ?_⟩
      exact .inr ⟨rfl, rfl, .inl (by omega)⟩
  · rw [if_neg hlast]
    refine ⟨n400, n100, n4, n1, ⟨rfl, by omega, by omega, by omega⟩, day, by omega, by omega, ?_⟩
    exact .inl (by omega)

theorem daysBeforeYear_yearOf (ordinal : ℤ) : daysBeforeYear (yearOf ordinal) < ordinal := by
  obtain ⟨n400, n100, n4, n1, hcycles, day, hday, hpos, -⟩ := exists_cycles ordinal
  rw [hcycles.daysBeforeYear]
  omega

theorem le_daysBeforeYear_yearOf (ordinal : ℤ) :
    ordinal ≤ daysBeforeYear (yearOf ordinal + 1) := by
  obtain ⟨n400, n100, n4, n1, hcycles, day, hday, -, hshort | ⟨rfl, rfl, hleap⟩⟩ :=
    exists_cycles ordinal
  · rw [daysBeforeYear_succ, hcycles.daysBeforeYear]
    rcases leapDay_cases (yearOf ordinal) with h | h <;> omega
  · rw [daysBeforeYear_succ, hcycles.leapDay hleap, hcycles.daysBeforeYear]
    omega

theorem yearOf_eq {year ordinal : ℤ} (hbefore : daysBeforeYear year < ordinal)
    (hafter : ordinal ≤ daysBeforeYear (year + 1)) : yearOf ordinal = year := by
  have hle : year < yearOf ordinal + 1 := strictMono_daysBeforeYear.lt_iff_lt.mp
    (hbefore.trans_le (le_daysBeforeYear_yearOf ordinal))
  have hge : yearOf ordinal < year + 1 := strictMono_daysBeforeYear.lt_iff_lt.mp
    ((daysBeforeYear_yearOf ordinal).trans_le hafter)
  omega

theorem le_yearOf {year ordinal : ℤ} (h : daysBeforeYear year < ordinal) :
    year ≤ yearOf ordinal := by
  have hlt : year < yearOf ordinal + 1 := strictMono_daysBeforeYear.lt_iff_lt.mp
    (h.trans_le (le_daysBeforeYear_yearOf ordinal))
  omega

/-! ## Months -/

theorem dayOfYear_nonneg (ordinal : ℤ) : 0 ≤ dayOfYear ordinal := by
  have h := daysBeforeYear_yearOf ordinal
  unfold dayOfYear
  omega

theorem dayOfYear_lt (ordinal : ℤ) :
    dayOfYear ordinal < daysBeforeMonth (yearOf ordinal) 13 := by
  have h := le_daysBeforeYear_yearOf ordinal
  rw [daysBeforeYear_succ] at h
  have htable : daysBeforeMonth (yearOf ordinal) 13 = 365 + leapDay (yearOf ordinal) := rfl
  unfold dayOfYear
  omega

theorem daysBeforeMonth_lt_succ (year : ℤ) {month : ℤ} (hlow : 1 ≤ month) (hhigh : month ≤ 12) :
    daysBeforeMonth year month < daysBeforeMonth year (month + 1) := by
  unfold daysBeforeMonth daysBeforeMonthTable
  rcases leapDay_cases year with h | h <;> rw [h] <;> interval_cases month <;> decide

theorem daysBeforeMonth_lt (year : ℤ) {month other : ℤ} (hlow : 1 ≤ month) (hlt : month < other)
    (hhigh : other ≤ 13) : daysBeforeMonth year month < daysBeforeMonth year other := by
  induction other, (show month + 1 ≤ other from hlt) using Int.leInduction with
  | base => exact daysBeforeMonth_lt_succ year hlow (by omega)
  | succ other hle ih =>
      exact (ih (by omega) (by omega)).trans (daysBeforeMonth_lt_succ year (by omega) (by omega))

theorem daysInMonth_le (year : ℤ) {month : ℤ} (hlow : 1 ≤ month) (hhigh : month ≤ 12) :
    daysInMonth year month ≤ 31 := by
  unfold daysInMonth daysBeforeMonth daysBeforeMonthTable
  rcases leapDay_cases year with h | h <;> rw [h] <;> interval_cases month <;> decide

/-- The estimate of the month is at most one too large. -/
theorem daysBeforeMonth_estimate (year : ℤ) {month : ℤ} (hlow : 1 ≤ month) (hhigh : month ≤ 12) :
    (month = 1 ∨ daysBeforeMonth year (month - 1) ≤ month * 32 - 50) ∧
      (month = 12 ∨ month * 32 - 18 ≤ daysBeforeMonth year (month + 1)) := by
  unfold daysBeforeMonth daysBeforeMonthTable
  rcases leapDay_cases year with h | h <;> rw [h] <;> interval_cases month <;> decide

/-- The month that has the day. -/
theorem monthOf_spec (ordinal : ℤ) : 1 ≤ monthOf ordinal ∧ monthOf ordinal ≤ 12 ∧
    daysBeforeMonth (yearOf ordinal) (monthOf ordinal) ≤ dayOfYear ordinal ∧
      dayOfYear ordinal < daysBeforeMonth (yearOf ordinal) (monthOf ordinal + 1) := by
  have hlow := dayOfYear_nonneg ordinal
  have hhigh := dayOfYear_lt ordinal
  unfold monthOf
  dsimp only
  generalize dayOfYear ordinal = day at *
  generalize yearOf ordinal = year at *
  have hlast : daysBeforeMonth year 13 = 365 + leapDay year := rfl
  have hone : 1 ≤ (day + 50) / 32 := by omega
  have htwelve : (day + 50) / 32 ≤ 12 := by rcases leapDay_cases year with h | h <;> omega
  have hestimate : (day + 50) / 32 * 32 ≤ day + 50 ∧ day + 50 < (day + 50) / 32 * 32 + 32 := by
    omega
  obtain ⟨hsmall, hlarge⟩ := daysBeforeMonth_estimate year hone htwelve
  generalize (day + 50) / 32 = month at *
  have hnext : day < daysBeforeMonth year (month + 1) := by
    rcases hlarge with rfl | hlarge
    · exact hhigh
    · omega
  split
  next hearly =>
    have hprev : daysBeforeMonth year (month - 1) ≤ day ∧ 1 ≤ month - 1 := by
      rcases hsmall with rfl | hsmall
      · exact absurd hlow (not_le.mpr hearly)
      · have hne : month ≠ 1 := by
          rintro rfl
          exact absurd hlow (not_le.mpr hearly)
        omega
    refine ⟨hprev.2, by omega, hprev.1, ?_⟩
    rwa [sub_add_cancel]
  next hlate => exact ⟨hone, htwelve, not_lt.mp hlate, hnext⟩

theorem monthOf_eq {ordinal month : ℤ} (hlow : 1 ≤ month) (hhigh : month ≤ 12)
    (hbefore : daysBeforeMonth (yearOf ordinal) month ≤ dayOfYear ordinal)
    (hafter : dayOfYear ordinal < daysBeforeMonth (yearOf ordinal) (month + 1)) :
    monthOf ordinal = month := by
  obtain ⟨hone, htwelve, hle, hlt⟩ := monthOf_spec ordinal
  rcases Int.lt_trichotomy (monthOf ordinal) month with h | h | h
  · have hmono : daysBeforeMonth (yearOf ordinal) (monthOf ordinal + 1) ≤
        daysBeforeMonth (yearOf ordinal) month := by
      rcases (show monthOf ordinal + 1 ≤ month from h).eq_or_lt with heq | hlt'
      · rw [heq]
      · exact (daysBeforeMonth_lt _ (by omega) hlt' (by omega)).le
    omega
  · exact h
  · have hmono : daysBeforeMonth (yearOf ordinal) (month + 1) ≤
        daysBeforeMonth (yearOf ordinal) (monthOf ordinal) := by
      rcases (show month + 1 ≤ monthOf ordinal from h).eq_or_lt with heq | hlt'
      · rw [heq]
      · exact (daysBeforeMonth_lt _ (by omega) hlt' (by omega)).le
    omega

/-- The ordinal of its own year, month and day. -/
theorem toOrdinal_fields (ordinal : ℤ) :
    toOrdinal (yearOf ordinal) (monthOf ordinal) (dayOf ordinal) = ordinal := by
  unfold toOrdinal dayOf dayOfYear
  omega

theorem dayOf_bounds (ordinal : ℤ) :
    1 ≤ dayOf ordinal ∧ dayOf ordinal ≤ daysInMonth (yearOf ordinal) (monthOf ordinal) := by
  obtain ⟨-, -, hle, hlt⟩ := monthOf_spec ordinal
  unfold dayOf daysInMonth
  omega

section Fields

variable {year month day : ℤ}

theorem daysBeforeMonth_one (year : ℤ) : daysBeforeMonth year 1 = 0 := rfl

theorem daysBeforeMonth_bounds (year : ℤ) (hlow : 1 ≤ month) (hhigh : month ≤ 12) :
    0 ≤ daysBeforeMonth year month ∧
      daysBeforeMonth year (month + 1) ≤ 365 + leapDay year := by
  constructor
  · rcases hlow.eq_or_lt with rfl | hlt
    · exact le_rfl
    · have h := daysBeforeMonth_lt year le_rfl hlt (by omega)
      rw [daysBeforeMonth_one] at h
      exact h.le
  · rw [show 365 + leapDay year = daysBeforeMonth year 13 from rfl]
    rcases (show month + 1 ≤ 13 by omega).eq_or_lt with heq | hlt
    · rw [heq]
    · exact (daysBeforeMonth_lt year (by omega) hlt le_rfl).le

theorem yearOf_toOrdinal (hmonth : 1 ≤ month ∧ month ≤ 12)
    (hday : 1 ≤ day ∧ day ≤ daysInMonth year month) :
    yearOf (toOrdinal year month day) = year := by
  obtain ⟨hlow, hhigh⟩ := daysBeforeMonth_bounds year hmonth.1 hmonth.2
  obtain ⟨hone, hlast⟩ := hday
  unfold daysInMonth at hlast
  apply yearOf_eq
  · unfold toOrdinal
    omega
  · rw [daysBeforeYear_succ]
    unfold toOrdinal
    omega

theorem dayOfYear_toOrdinal (hmonth : 1 ≤ month ∧ month ≤ 12)
    (hday : 1 ≤ day ∧ day ≤ daysInMonth year month) :
    dayOfYear (toOrdinal year month day) = daysBeforeMonth year month + day - 1 := by
  unfold dayOfYear
  rw [yearOf_toOrdinal hmonth hday]
  unfold toOrdinal
  omega

theorem monthOf_toOrdinal (hmonth : 1 ≤ month ∧ month ≤ 12)
    (hday : 1 ≤ day ∧ day ≤ daysInMonth year month) :
    monthOf (toOrdinal year month day) = month := by
  have hof := dayOfYear_toOrdinal hmonth hday
  have hyear := yearOf_toOrdinal hmonth hday
  obtain ⟨hone, hlast⟩ := hday
  unfold daysInMonth at hlast
  apply monthOf_eq hmonth.1 hmonth.2
  · rw [hof, hyear]
    omega
  · rw [hof, hyear]
    omega

theorem dayOf_toOrdinal (hmonth : 1 ≤ month ∧ month ≤ 12)
    (hday : 1 ≤ day ∧ day ≤ daysInMonth year month) :
    dayOf (toOrdinal year month day) = day := by
  unfold dayOf
  rw [yearOf_toOrdinal hmonth hday, monthOf_toOrdinal hmonth hday, dayOfYear_toOrdinal hmonth hday]
  omega

end Fields

/-! ## Weeks -/

theorem toOrdinal_first (year : ℤ) : toOrdinal year 1 1 = daysBeforeYear year + 1 := by
  unfold toOrdinal
  rw [daysBeforeMonth_one, add_zero]

/-- Week 1 starts on a Monday, at most three days from 1 January. -/
theorem isoWeek1Monday_bounds (year : ℤ) : isoWeek1Monday year % 7 = 1 ∧
    daysBeforeYear year - 2 ≤ isoWeek1Monday year ∧
      isoWeek1Monday year ≤ daysBeforeYear year + 4 := by
  unfold isoWeek1Monday
  dsimp only
  rw [toOrdinal_first]
  split <;> omega

theorem isoWeek1Monday_succ (year : ℤ) :
    isoWeek1Monday year + 364 ≤ isoWeek1Monday (year + 1) ∧
      isoWeek1Monday (year + 1) ≤ isoWeek1Monday year + 371 := by
  obtain ⟨hmonday, hlow, hhigh⟩ := isoWeek1Monday_bounds year
  obtain ⟨hmonday', hlow', hhigh'⟩ := isoWeek1Monday_bounds (year + 1)
  rw [daysBeforeYear_succ] at hlow' hhigh'
  rcases leapDay_cases year with h | h <;> omega

theorem strictMono_isoWeek1Monday : StrictMono isoWeek1Monday := by
  apply strictMono_of_lt_succ
  intro year _
  have h := (isoWeek1Monday_succ year).1
  change isoWeek1Monday year < isoWeek1Monday (year + 1)
  omega

/-- The week of a day is counted from week 1 of the year whose weeks have the day. -/
theorem exists_isocalendar (ordinal : ℤ) : ∃ year, isoWeek1Monday year ≤ ordinal ∧
    ordinal < isoWeek1Monday (year + 1) ∧
      isocalendar ordinal = (year, (ordinal - isoWeek1Monday year) / 7 + 1,
        (ordinal - isoWeek1Monday year) % 7 + 1) := by
  have hbefore := daysBeforeYear_yearOf ordinal
  have hafter := le_daysBeforeYear_yearOf ordinal
  unfold isocalendar
  dsimp only
  generalize yearOf ordinal = year at *
  obtain ⟨hmonday, hlow, hhigh⟩ := isoWeek1Monday_bounds year
  obtain ⟨hmonday', hlow', hhigh'⟩ := isoWeek1Monday_bounds (year + 1)
  have hnext := isoWeek1Monday_succ year
  have hafterNext := isoWeek1Monday_succ (year + 1)
  split
  next hearly =>
    have hprev := isoWeek1Monday_succ (year - 1)
    rw [sub_add_cancel] at hprev
    refine ⟨year - 1, ?_, ?_, rfl⟩
    · omega
    · rw [sub_add_cancel]
      omega
  next hweek =>
    split
    next hlate =>
      refine ⟨year + 1, hlate.2, by omega, ?_⟩
      have hone : (ordinal - isoWeek1Monday (year + 1)) / 7 + 1 = 1 := by omega
      have hday : (ordinal - isoWeek1Monday year) % 7 =
          (ordinal - isoWeek1Monday (year + 1)) % 7 := by omega
      rw [hone, hday]
    next hinside =>
      refine ⟨year, by omega, ?_, rfl⟩
      by_contra hpast
      exact hinside ⟨by omega, not_lt.mp hpast⟩

theorem isocalendar_eq (year : ℤ) {ordinal : ℤ} (hbefore : isoWeek1Monday year ≤ ordinal)
    (hafter : ordinal < isoWeek1Monday (year + 1)) :
    isocalendar ordinal = (year, (ordinal - isoWeek1Monday year) / 7 + 1,
      (ordinal - isoWeek1Monday year) % 7 + 1) := by
  obtain ⟨other, hlow, hhigh, hcalendar⟩ := exists_isocalendar ordinal
  have hle : year < other + 1 := strictMono_isoWeek1Monday.lt_iff_lt.mp (hbefore.trans_lt hhigh)
  have hge : other < year + 1 := strictMono_isoWeek1Monday.lt_iff_lt.mp (hlow.trans_lt hafter)
  obtain rfl : other = year := by omega
  exact hcalendar

end Trun.Calendar
