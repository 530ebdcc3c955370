import Trun.DateInterval.Tiles
import Trun.Parameter.Dates
import Trun.Program.Grids

/-!
# Clamping is the floor onto the enumeration

Each class of date parameters is a tiling, by days, months, years or seconds,
and a parameter of the class is a grid on it.  `normalize` is the floor of the
grid and `next_in_enumeration` its step.
-/

namespace Trun.Dates

open Calendar DateInterval

/-! ## What the classes compute -/

section Days

variable {self : DateParam} {d n : ℤ}

theorem addDays_ok_iff {days : ℤ} :
    addDays d days = .ok n ↔ n = d + days ∧ 1 ≤ n ∧ n ≤ maxOrdinal := by
  constructor
  · exact addDays_eq_ok
  · rintro ⟨rfl, hlow, hhigh⟩
    exact addDays_of_valid hlow hhigh

/-- The first of a month is in the calendar if its year is. -/
theorem date_first_ok_iff {year month : ℤ} (hmonth : 1 ≤ month ∧ month ≤ 12) :
    date year month 1 = .ok n ↔ n = toOrdinal year month 1 ∧ 1 ≤ n ∧ n ≤ maxOrdinal := by
  have hday : 1 ≤ (1 : ℤ) ∧ 1 ≤ daysInMonth year month := by
    have hlt := daysBeforeMonth_lt_succ year hmonth.1 hmonth.2
    rw [daysInMonth]
    omega
  have hbefore := daysBeforeYear_yearOf (toOrdinal year month 1)
  have hafter := le_daysBeforeYear_yearOf (toOrdinal year month 1)
  rw [yearOf_toOrdinal hmonth hday] at hbefore hafter
  constructor
  · intro hdate
    obtain ⟨hyear, -, -, rfl⟩ := date_eq_ok hdate
    have hfirst := strictMono_daysBeforeYear.monotone hyear.1
    have hlast := strictMono_daysBeforeYear.monotone (show year + 1 ≤ 10000 by omega)
    rw [show daysBeforeYear 1 = 0 from rfl] at hfirst
    rw [daysBeforeYear_max] at hlast
    exact ⟨rfl, by omega, by omega⟩
  · rintro ⟨rfl, hlow, hhigh⟩
    have hyear : 1 ≤ year := by
      rw [← yearOf_toOrdinal hmonth hday]
      exact le_yearOf (show (0 : ℤ) < toOrdinal year month 1 by omega)
    exact date_of_valid ⟨hyear, year_le_of_daysBeforeYear_lt (by omega)⟩ hmonth hday

namespace DateParameter

theorem clamp_ok_iff : clamp self d = .ok n ↔
    n = d - (d - self.start) % self.interval ∧ 1 ≤ n ∧ n ≤ maxOrdinal := by
  rw [clamp, addDays_ok_iff, ← sub_eq_add_neg]

end DateParameter

namespace MonthParameter

/-- Months are counted through the years. -/
theorem addMonths_ok_iff {months : ℤ} : addMonths d months = .ok n ↔
    n = monthStart (yearOf d * 12 + monthOf d - 1 + months) ∧ 1 ≤ n ∧ n ≤ maxOrdinal := by
  have hyear : yearOf d + (monthOf d + months - 1) / 12 =
      (yearOf d * 12 + monthOf d - 1 + months) / 12 := by omega
  have hmonth : (monthOf d + months - 1) % 12 + 1 =
      (yearOf d * 12 + monthOf d - 1 + months) % 12 + 1 := by omega
  rw [addMonths, date_first_ok_iff (by omega), hyear, hmonth, monthStart]

end MonthParameter

end Days

namespace DatetimeParameterBase

variable {timedelta : ℤ} {self : DateParam} {t n : ℤ}

theorem addMicros_ok_iff {delta : ℤ} :
    addMicros t delta = .ok n ↔ n = t + delta ∧ 0 ≤ n ∧ n < maxOrdinal * day := by
  rw [addMicros]
  constructor
  · intro hadd
    split_ifs at hadd with hvalid
    cases hadd
    exact ⟨rfl, hvalid⟩
  · rintro ⟨rfl, hvalid⟩
    rw [if_pos hvalid]

/-- The intervals that a `timedelta` can be. -/
def Fits (timedelta : ℤ) (self : DateParam) : Prop :=
  -999999999 ≤ timedelta * self.interval / 86400 ∧ timedelta * self.interval / 86400 ≤ 999999999

theorem granularity_of_fits (hfits : Fits timedelta self) :
    granularity timedelta self = .ok (timedelta * self.interval) :=
  if_pos hfits

theorem granularity_of_not_fits (hfits : ¬Fits timedelta self) :
    granularity timedelta self = .error .overflowError :=
  if_neg hfits

theorem nextInEnumeration_ok_iff : nextInEnumeration timedelta self t = .ok n ↔
    Fits timedelta self ∧ n = t + timedelta * self.interval * second ∧
      0 ≤ n ∧ n < maxOrdinal * day := by
  rw [nextInEnumeration]
  by_cases hfits : Fits timedelta self
  · rw [granularity_of_fits hfits, and_iff_right hfits]
    exact addMicros_ok_iff
  · rw [granularity_of_not_fits hfits]
    exact iff_of_false (fun h => by cases h) fun h => hfits h.1

theorem clamp_ok_iff : clamp timedelta self t = .ok n ↔
    Fits timedelta self ∧
      n = t - t % second -
        (t - t % second - self.start) / second % (timedelta * self.interval) * second ∧
      0 ≤ n ∧ n < maxOrdinal * day := by
  rw [clamp]
  by_cases hfits : Fits timedelta self
  · rw [granularity_of_fits hfits, and_iff_right hfits, sub_eq_add_neg (t - t % second)]
    exact addMicros_ok_iff
  · rw [granularity_of_not_fits hfits]
    exact iff_of_false (fun h => by cases h) fun h => hfits h.1

end DatetimeParameterBase

/-! ## The classes as grids -/

/-- Whole seconds. -/
def seconds : Tiling where
  start k := k * second
  index t := t / second
  start_lt_succ := fun k => by dsimp only [second]; omega
  start_index_le := fun t => by dsimp only [second]; omega
  lt_start_index := fun t => by dsimp only [second]; omega

namespace DatetimeParameterBase

variable {timedelta : ℤ} {self : DateParam} {k m t n : ℤ}

theorem next_start_ok_iff : nextInEnumeration timedelta self (seconds.start k) = .ok m ↔
    Fits timedelta self ∧ m = seconds.start (k + timedelta * self.interval) ∧
      0 ≤ m ∧ m < maxOrdinal * day := by
  rw [nextInEnumeration_ok_iff]
  change _ ∧ m = k * second + _ ∧ _ ↔ _ ∧ m = (k + timedelta * self.interval) * second ∧ _
  rw [add_mul]

theorem clamp_floor_ok_iff (hstart : self.start % second = 0) :
    clamp timedelta self t = .ok n ↔ Fits timedelta self ∧
      n = seconds.start (seconds.index t -
        (seconds.index t - seconds.index self.start) % (timedelta * self.interval)) ∧
      0 ≤ n ∧ n < maxOrdinal * day := by
  have hwhole : t - t % second = t / second * second := by
    dsimp only [second]
    omega
  have hdelta : (t - t % second - self.start) / second = t / second - self.start / second := by
    dsimp only [second] at hstart ⊢
    omega
  rw [clamp_ok_iff, hdelta, hwhole, ← sub_mul]
  rfl

end DatetimeParameterBase

namespace DateClass

/-- The units of a class. -/
def tiling : DateClass → Tiling
  | .dateParameter => DateInterval.tiling .date
  | .monthParameter => DateInterval.tiling .month
  | .yearParameter => DateInterval.tiling .year
  | .dateHourParameter => seconds
  | .dateMinuteParameter => seconds
  | .dateSecondParameter => seconds

/-- How many units an interval of 1 has. -/
def step : DateClass → ℤ
  | .dateParameter => 1
  | .monthParameter => 1
  | .yearParameter => 1
  | .dateHourParameter => 3600
  | .dateMinuteParameter => 60
  | .dateSecondParameter => 1

theorem step_pos (cls : DateClass) : 0 < cls.step := by
  cases cls <;> decide

def grid (cls : DateClass) (self : DateParam) (hinterval : 1 ≤ self.interval) : Grid where
  toTiling := cls.tiling
  interval := cls.step * self.interval
  origin := cls.tiling.index self.start
  pos := Int.mul_pos cls.step_pos hinterval

/-- The date or the datetime that a class takes of a value. -/
def read : DateClass → Value → Option ℤ
  | _, .none => none
  | .dateParameter, .date d => some d
  | .dateParameter, .datetime t => some (dateOf t)
  | .dateParameter, .interval _ => none
  | .monthParameter, .date d => some d
  | .monthParameter, .datetime t => some (dateOf t)
  | .monthParameter, .interval i => if i.kind = .month then some i.dateA else none
  | .yearParameter, .date d => some d
  | .yearParameter, .datetime t => some (dateOf t)
  | .yearParameter, .interval i => if i.kind = .year then some i.dateA else none
  | _, .date d => some (midnight d)
  | _, .datetime t => some t
  | _, .interval _ => none

def clamp : DateClass → DateParam → ℤ → Except DateError ℤ
  | .dateParameter => DateParameter.clamp
  | .monthParameter => MonthParameter.clamp
  | .yearParameter => YearParameter.clamp
  | .dateHourParameter => DatetimeParameterBase.clamp 3600
  | .dateMinuteParameter => DatetimeParameterBase.clamp 60
  | .dateSecondParameter => DatetimeParameterBase.clamp 1

/-- The years 1 to 9999. -/
def Supported (cls : DateClass) (n : ℤ) : Prop :=
  match cls.value n with
  | .date d => 1 ≤ d ∧ d ≤ maxOrdinal
  | _ => 0 ≤ n ∧ n < maxOrdinal * day

/-- The interval is one that the library can multiply. -/
def Fits (cls : DateClass) (self : DateParam) : Prop :=
  match cls.value 0 with
  | .date _ => True
  | _ => DatetimeParameterBase.Fits cls.step self

/-- The start of a datetime has no microseconds. -/
def WholeStart (cls : DateClass) (self : DateParam) : Prop :=
  match cls.value 0 with
  | .date _ => True
  | _ => self.start % second = 0

/-- The epoch is a whole second. -/
theorem wholeStart_new (cls : DateClass) (interval : Option ℤ) :
    cls.WholeStart (cls.new interval none) := by
  cases cls with
  | dateParameter => trivial
  | monthParameter => trivial
  | yearParameter => trivial
  | dateHourParameter => exact (show midnight 719163 % second = 0 by decide)
  | dateMinuteParameter => exact (show midnight 719163 % second = 0 by decide)
  | dateSecondParameter => exact (show midnight 719163 % second = 0 by decide)

variable {cls : DateClass} {self : DateParam} {v : Value} {d k m n : ℤ}

theorem normalize_of_read (hread : cls.read v = some d) :
    cls.normalize self v = calendar (cls.value <$> cls.clamp self d) := by
  cases v with
  | none => cases cls <;> cases hread
  | date d' => cases cls <;> cases hread <;> rfl
  | datetime t => cases cls <;> cases hread <;> rfl
  | interval i =>
      cases cls with
      | monthParameter =>
          obtain ⟨hkind, hd⟩ := Option.ite_none_right_eq_some.mp hread
          cases hd
          exact if_pos hkind
      | yearParameter =>
          obtain ⟨hkind, hd⟩ := Option.ite_none_right_eq_some.mp hread
          cases hd
          exact if_pos hkind
      | _ => cases hread

theorem read_value (cls : DateClass) (n : ℤ) : cls.read (cls.value n) = some n := by
  cases cls <;> rfl

theorem value_injective (cls : DateClass) : Function.Injective cls.value := by
  intro m n heq
  cases cls <;> cases heq <;> rfl

theorem calendar_map_eq_ok {result : Except DateError ℤ} :
    calendar (cls.value <$> result) = .ok (cls.value n) ↔ result = .ok n := by
  cases result with
  | error error => exact iff_of_false (fun h => by cases h) fun h => by cases h
  | ok m =>
      change Except.ok (cls.value m) = Except.ok (cls.value n) ↔ _
      rw [Except.ok.injEq, Except.ok.injEq, cls.value_injective.eq_iff]

/-- `next_in_enumeration` of the first point of a unit. -/
theorem nextInEnumeration_ok_iff : cls.nextInEnumeration self (cls.tiling.start k) = .ok m ↔
    cls.Fits self ∧ m = cls.tiling.start (k + cls.step * self.interval) ∧ cls.Supported m := by
  cases cls with
  | dateParameter =>
      change addDays k self.interval = .ok m ↔
        True ∧ m = k + 1 * self.interval ∧ 1 ≤ m ∧ m ≤ maxOrdinal
      rw [true_and, one_mul]
      exact addDays_ok_iff
  | monthParameter =>
      have hindex : yearOf (monthStart k) * 12 + monthOf (monthStart k) - 1 = k :=
        (DateInterval.tiling .month).index_start k
      change MonthParameter.addMonths (monthStart k) self.interval = .ok m ↔
        True ∧ m = monthStart (k + 1 * self.interval) ∧ 1 ≤ m ∧ m ≤ maxOrdinal
      rw [true_and, one_mul, MonthParameter.addMonths_ok_iff, hindex]
  | yearParameter =>
      have hmonth : 1 ≤ (1 : ℤ) ∧ (1 : ℤ) ≤ 12 := by decide
      have hday : 1 ≤ (1 : ℤ) ∧ (1 : ℤ) ≤ daysInMonth k 1 := ⟨le_rfl, show (1 : ℤ) ≤ 31 by decide⟩
      change YearParameter.nextInEnumeration self (toOrdinal k 1 1) = .ok m ↔
        True ∧ m = toOrdinal (k + 1 * self.interval) 1 1 ∧ 1 ≤ m ∧ m ≤ maxOrdinal
      rw [true_and, one_mul, YearParameter.nextInEnumeration, yearOf_toOrdinal hmonth hday,
        monthOf_toOrdinal hmonth hday, dayOf_toOrdinal hmonth hday]
      exact date_first_ok_iff hmonth
  | dateHourParameter => exact DatetimeParameterBase.next_start_ok_iff
  | dateMinuteParameter => exact DatetimeParameterBase.next_start_ok_iff
  | dateSecondParameter => exact DatetimeParameterBase.next_start_ok_iff

/-- The numeric part of `normalize` is the floor of the grid. -/
theorem clamp_ok_iff (hinterval : 1 ≤ self.interval) (hstart : cls.WholeStart self) :
    cls.clamp self d = .ok n ↔
      cls.Fits self ∧ n = (cls.grid self hinterval).clamp d ∧ cls.Supported n := by
  cases cls with
  | dateParameter =>
      change DateParameter.clamp self d = .ok n ↔
        True ∧ n = d - (d - self.start) % (1 * self.interval) ∧ 1 ≤ n ∧ n ≤ maxOrdinal
      rw [true_and, one_mul]
      exact DateParameter.clamp_ok_iff
  | monthParameter =>
      change MonthParameter.clamp self d = .ok n ↔
        True ∧ n = monthStart (yearOf d * 12 + monthOf d - 1 -
          (yearOf d * 12 + monthOf d - 1 - (yearOf self.start * 12 + monthOf self.start - 1)) %
            (1 * self.interval)) ∧ 1 ≤ n ∧ n ≤ maxOrdinal
      have hmonths : (yearOf d - yearOf self.start) * 12 + (monthOf d - monthOf self.start) =
          yearOf d * 12 + monthOf d - 1 - (yearOf self.start * 12 + monthOf self.start - 1) := by
        omega
      rw [true_and, one_mul, MonthParameter.clamp, MonthParameter.addMonths_ok_iff, hmonths]
      rw [← add_sub_assoc, add_sub_cancel]
  | yearParameter =>
      change date (yearOf d - (yearOf d - yearOf self.start) % self.interval) 1 1 = .ok n ↔
        True ∧ n = toOrdinal (yearOf d - (yearOf d - yearOf self.start) % (1 * self.interval)) 1 1 ∧
          1 ≤ n ∧ n ≤ maxOrdinal
      rw [true_and, one_mul]
      exact date_first_ok_iff (by decide)
  | dateHourParameter => exact DatetimeParameterBase.clamp_floor_ok_iff hstart
  | dateMinuteParameter => exact DatetimeParameterBase.clamp_floor_ok_iff hstart
  | dateSecondParameter => exact DatetimeParameterBase.clamp_floor_ok_iff hstart

/-- How far `previous` goes back, in the numbers of the class. -/
def backNumber (cls : DateClass) : ℤ :=
  match cls.value 0 with
  | .date _ => 1
  | _ => cls.back * second

/-- A step back stays within one interval. -/
theorem backNumber_near (cls : DateClass) (k : ℤ) (hinterval : 1 ≤ self.interval) :
    0 < cls.backNumber ∧
    cls.tiling.start (k - cls.step * self.interval) ≤ cls.tiling.start k - cls.backNumber := by
  have hlt : cls.tiling.start (k - cls.step * self.interval) < cls.tiling.start k :=
    cls.tiling.strictMono_start (sub_lt_self k (Int.mul_pos cls.step_pos hinterval))
  have hseconds : ∀ timedelta > 0, (k - timedelta * self.interval) * second ≤
      k * second - timedelta * second := by
    intro timedelta hpos
    have hle := mul_le_mul_of_nonneg_left hinterval hpos.le
    rw [mul_one] at hle
    dsimp only [second]
    omega
  cases cls with
  | dateParameter => exact ⟨one_pos, Int.le_sub_one_of_lt hlt⟩
  | monthParameter => exact ⟨one_pos, Int.le_sub_one_of_lt hlt⟩
  | yearParameter => exact ⟨one_pos, Int.le_sub_one_of_lt hlt⟩
  | dateHourParameter => exact ⟨by decide, hseconds 3600 (by decide)⟩
  | dateMinuteParameter => exact ⟨by decide, hseconds 60 (by decide)⟩
  | dateSecondParameter => exact ⟨by decide, hseconds 1 (by decide)⟩

/-- The step back of `previous`. -/
def goBack (cls : DateClass) (n : ℤ) : Except DateError ℤ :=
  match cls.value 0 with
  | .date _ => addDays n (-1)
  | _ => addMicros n (-(cls.back * second))

theorem sub_value (cls : DateClass) (n : ℤ) :
    (cls.value n).sub cls.back = calendar (cls.value <$> cls.goBack n) := by
  cases cls <;> rfl

theorem goBack_ok_iff : cls.goBack n = .ok m ↔ m = n - cls.backNumber ∧ cls.Supported m := by
  cases cls with
  | dateParameter => exact addDays_ok_iff
  | monthParameter => exact addDays_ok_iff
  | yearParameter => exact addDays_ok_iff
  | dateHourParameter => exact DatetimeParameterBase.addMicros_ok_iff
  | dateMinuteParameter => exact DatetimeParameterBase.addMicros_ok_iff
  | dateSecondParameter => exact DatetimeParameterBase.addMicros_ok_iff

/-- The value of the step before, as the new step normalizes it. -/
theorem goBack_normalize_ok_iff :
    ((cls.value n).sub cls.back >>= cls.normalize self) = .ok (cls.value m) ↔
      cls.Supported (n - cls.backNumber) ∧ cls.clamp self (n - cls.backNumber) = .ok m := by
  rw [sub_value]
  cases hback : cls.goBack n with
  | error error =>
      refine iff_of_false (fun h => by cases h) ?_
      rintro ⟨hsupported, -⟩
      rw [goBack_ok_iff.mpr ⟨rfl, hsupported⟩] at hback
      cases hback
  | ok w =>
      obtain ⟨rfl, hsupported⟩ := goBack_ok_iff.mp hback
      rw [and_iff_right hsupported, ← calendar_map_eq_ok,
        ← normalize_of_read (cls.read_value (n - cls.backNumber))]
      rfl

/-- The years 1 to 9999 have no gap. -/
theorem Supported.between (hm : cls.Supported m) (hn : cls.Supported n) (hmk : m ≤ k)
    (hkn : k ≤ n) : cls.Supported k := by
  cases cls with
  | dateParameter => exact ⟨hm.1.trans hmk, hkn.trans hn.2⟩
  | monthParameter => exact ⟨hm.1.trans hmk, hkn.trans hn.2⟩
  | yearParameter => exact ⟨hm.1.trans hmk, hkn.trans hn.2⟩
  | dateHourParameter => exact ⟨hm.1.trans hmk, hkn.trans_lt hn.2⟩
  | dateMinuteParameter => exact ⟨hm.1.trans hmk, hkn.trans_lt hn.2⟩
  | dateSecondParameter => exact ⟨hm.1.trans hmk, hkn.trans_lt hn.2⟩

end DateClass

/-! ## The step before -/

section Previous

theorem mapM_eq_self {β ε : Type} {f : β → Except ε β} {items : List β}
    (hkeeps : ∀ item ∈ items, f item = .ok item) : items.mapM f = .ok items := by
  induction items with
  | nil => rfl
  | cons item rest ih =>
      rw [List.forall_mem_cons] at hkeeps
      rw [List.mapM_cons, hkeeps.1, ih hkeeps.2]
      rfl

/-- A traversal that changes one item. -/
theorem mapM_middle {β ε : Type} {f : β → Except ε β} {front back : List β} (item : β)
    (hfront : ∀ item ∈ front, f item = .ok item) (hback : ∀ item ∈ back, f item = .ok item) :
    (front ++ item :: back).mapM f = (f item).map fun new => front ++ new :: back := by
  rw [List.mapM_append, List.mapM_cons, mapM_eq_self hfront, mapM_eq_self hback]
  cases f item with
  | error error => rfl
  | ok new => rfl

variable {α : Type} {normalizeOther : α → Except ParamError α}

/-- The parameters that `previous` gives to the new step as they are. -/
def Kept (normalizeOther : α → Except ParamError α) (params : List (String × Param α)) : Prop :=
  ∀ param ∈ params, ∃ value, param.2 = .other value ∧ normalizeOther value = .ok value

variable {params front back : List (String × Param α)}

theorem Kept.moveBack (hkept : Kept normalizeOther params) :
    ∀ param ∈ params, (do return (param.1, ← param.2.moveBack)) = .ok param := by
  rintro ⟨name, param⟩ hparam
  obtain ⟨value, hvalue, -⟩ := hkept _ hparam
  cases hvalue
  rfl

theorem Kept.normalize (hkept : Kept normalizeOther params) :
    ∀ param ∈ params, (do return (param.1, ← param.2.normalize normalizeOther)) = .ok param := by
  rintro ⟨name, param⟩ hparam
  obtain ⟨value, hvalue, hnormalize⟩ := hkept _ hparam
  cases hvalue
  rw [Param.normalize, hnormalize]
  rfl

theorem Kept.filter (hkept : Kept normalizeOther params) :
    (params.filter fun param => param.2.isDated) = [] := by
  rw [List.filter_eq_nil_iff]
  intro param hparam
  obtain ⟨value, hvalue, -⟩ := hkept param hparam
  rw [hvalue]
  exact Bool.false_ne_true

theorem previous_of_kept (hkept : Kept normalizeOther params) :
    previous normalizeOther params = .error noStepParameter := by
  rw [previous, mapM_eq_self hkept.moveBack, hkept.filter]
  rfl

/-- A step with one date-related parameter has the same step before it but for that parameter. -/
theorem previous_eq {name : String} {cls : DateClass} {self : DateParam} {v : Value}
    (hfront : Kept normalizeOther front) (hback : Kept normalizeOther back) :
    previous normalizeOther (front ++ (name, .dated cls self v) :: back) =
      match v.sub cls.back >>= cls.normalize self with
      | .error error => .error (.param error)
      | .ok w => .ok (front ++ (name, .dated cls self w) :: back) := by
  have hdated : ((front ++ (name, .dated cls self v) :: back).filter
      fun param => param.2.isDated).length = 1 := by
    rw [List.filter_append, hfront.filter, List.filter_cons_of_pos rfl, hback.filter]
    rfl
  rw [previous, mapM_middle _ hfront.moveBack hback.moveBack, hdated]
  cases hsub : v.sub cls.back with
  | error error =>
      rw [Param.moveBack, hsub]
      rfl
  | ok u =>
      rw [Param.moveBack, hsub]
      have hclone : clone normalizeOther (front ++ (name, .dated cls self u) :: back) =
          (cls.normalize self u).map fun w => front ++ (name, .dated cls self w) :: back := by
        rw [clone, mapM_middle _ hfront.normalize hback.normalize, Param.normalize]
        cases cls.normalize self u with
        | error error => rfl
        | ok w => rfl
      simp only [bind, pure, Except.map, Except.bind, Except.pure, one_ne_zero, lt_irrefl, if_false,
        hclone]
      cases cls.normalize self u with
      | error error => rfl
      | ok w => rfl

end Previous

/-! ## The floor onto the enumeration -/

section Floor

variable {cls : DateClass} {self : DateParam} {v : Value} {d m n p x : ℤ}

theorem normalize_ok_iff (hinterval : 1 ≤ self.interval) (hstart : cls.WholeStart self)
    (hread : cls.read v = some d) : cls.normalize self v = .ok (cls.value n) ↔
      cls.Fits self ∧ n = (cls.grid self hinterval).clamp d ∧ cls.Supported n := by
  rw [DateClass.normalize_of_read hread, DateClass.calendar_map_eq_ok,
    DateClass.clamp_ok_iff hinterval hstart]

/-- The values that a parameter keeps. -/
theorem fixed_iff (hinterval : 1 ≤ self.interval) (hstart : cls.WholeStart self) :
    cls.normalize self (cls.value x) = .ok (cls.value x) ↔
      cls.Fits self ∧ (cls.grid self hinterval).clamp x = x ∧ cls.Supported x := by
  rw [normalize_ok_iff hinterval hstart (cls.read_value x), eq_comm (a := x)]

theorem next_ok_iff (hinterval : 1 ≤ self.interval)
    (hfixed : (cls.grid self hinterval).clamp n = n) : cls.nextInEnumeration self n = .ok m ↔
      cls.Fits self ∧ m = (cls.grid self hinterval).next n ∧ cls.Supported m := by
  obtain ⟨k, -, rfl⟩ := Grid.exists_start hfixed
  rw [Grid.next_start]
  exact DateClass.nextInEnumeration_ok_iff

theorem previous_ok_iff (hinterval : 1 ≤ self.interval) (hstart : cls.WholeStart self)
    (hn : cls.normalize self (cls.value n) = .ok (cls.value n)) :
    ((cls.value n).sub cls.back >>= cls.normalize self) = .ok (cls.value p) ↔
      cls.normalize self (cls.value p) = .ok (cls.value p) ∧
        cls.nextInEnumeration self p = .ok n := by
  obtain ⟨hfits, hfixed, hsupported⟩ := (fixed_iff hinterval hstart).mp hn
  obtain ⟨k, -, hk⟩ := Grid.exists_start hfixed
  obtain ⟨hpos, hnear⟩ := cls.backNumber_near k hinterval
  have hiff := Grid.clamp_eq_iff_next_eq (p := p) hfixed (sub_lt_self n hpos) (by
    rw [hk, Tiling.index_start]
    exact hnear)
  rw [DateClass.goBack_normalize_ok_iff, DateClass.clamp_ok_iff hinterval hstart,
    fixed_iff hinterval hstart]
  constructor
  · rintro ⟨-, -, hclamp, hp⟩
    obtain ⟨hpfixed, hnext⟩ := hiff.mp hclamp.symm
    exact ⟨⟨hfits, hpfixed, hp⟩,
      (next_ok_iff hinterval hpfixed).mpr ⟨hfits, hnext.symm, hsupported⟩⟩
  · rintro ⟨⟨-, hpfixed, hp⟩, hnext⟩
    obtain ⟨-, hnext, -⟩ := (next_ok_iff hinterval hpfixed).mp hnext
    have hclamp := hiff.mpr ⟨hpfixed, hnext.symm⟩
    have hle := (cls.grid self hinterval).clamp_le (n - cls.backNumber)
    rw [hclamp] at hle
    exact ⟨hp.between hsupported hle (sub_le_self n hpos.le), hfits, hclamp.symm, hp⟩

theorem normalize_floor (hinterval : 1 ≤ self.interval) (hstart : cls.WholeStart self)
    (hread : cls.read v = some d) (hnormalize : cls.normalize self v = .ok (cls.value n)) :
    n ≤ d ∧ cls.normalize self (cls.value n) = .ok (cls.value n) ∧
      (∀ m, cls.nextInEnumeration self n = .ok m → d < m ∧
        cls.normalize self (cls.value m) = .ok (cls.value m) ∧
        ∀ x, n < x → x < m → cls.normalize self (cls.value x) ≠ .ok (cls.value x)) ∧
      (∀ v' d' n', cls.read v' = some d' → cls.normalize self v' = .ok (cls.value n') →
        d ≤ d' → n ≤ n') ∧
      ∀ (α : Type) (normalizeOther : α → Except ParamError α) (name : String)
        (front back : List (String × Param α)) (p : ℤ),
        Kept normalizeOther front → Kept normalizeOther back →
        (previous normalizeOther (front ++ (name, .dated cls self (cls.value n)) :: back) =
            .ok (front ++ (name, .dated cls self (cls.value p)) :: back) ↔
          cls.normalize self (cls.value p) = .ok (cls.value p) ∧
            cls.nextInEnumeration self p = .ok n) := by
  obtain ⟨hfits, rfl, hsupported⟩ := (normalize_ok_iff hinterval hstart hread).mp hnormalize
  have hclamp := (cls.grid self hinterval).clamp_clamp d
  have hfixed := (fixed_iff hinterval hstart).mpr ⟨hfits, hclamp, hsupported⟩
  refine ⟨(cls.grid self hinterval).clamp_le d, hfixed, ?_, ?_, ?_⟩
  · intro m hnext
    obtain ⟨-, rfl, hm⟩ := (next_ok_iff hinterval hclamp).mp hnext
    refine ⟨(cls.grid self hinterval).lt_next_clamp d, ?_, ?_⟩
    · exact (fixed_iff hinterval hstart).mpr ⟨hfits, Grid.clamp_next hclamp, hm⟩
    · intro x hafter hbefore hx
      exact Grid.not_fixed_between hclamp hafter hbefore ((fixed_iff hinterval hstart).mp hx).2.1
  · intro v' d' n' hread' hnormalize' hle
    obtain ⟨-, rfl, -⟩ := (normalize_ok_iff hinterval hstart hread').mp hnormalize'
    exact (cls.grid self hinterval).monotone_clamp hle
  · intro α normalizeOther name front back p hfront hback
    rw [previous_eq hfront hback, ← previous_ok_iff hinterval hstart hfixed]
    cases (cls.value _).sub cls.back >>= cls.normalize self with
    | error error => exact iff_of_false (fun h => by cases h) fun h => by cases h
    | ok w =>
        constructor
        · intro heq
          have hlists := List.append_cancel_left (Except.ok.inj heq)
          cases (List.cons.inj hlists).1
          rfl
        · intro heq
          cases heq
          rfl

/-- Every seventh day, counted from 8 January 1970, which is after the value. -/
theorem normalize_floor_week :
    DateClass.dateParameter.normalize ⟨7, 719170⟩ (.date 719165) = .ok (.date 719163) ∧
      (719163 : ℤ) ≤ 719165 := by
  have hnormalize : DateClass.dateParameter.normalize ⟨7, 719170⟩ (.date 719165) =
      .ok (DateClass.dateParameter.value 719163) := by rfl
  exact ⟨hnormalize, (@normalize_floor .dateParameter _ _ _ _ (by decide) trivial rfl
    hnormalize).1⟩

end Floor

end Trun.Dates
