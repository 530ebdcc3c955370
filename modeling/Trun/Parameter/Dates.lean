import Trun.DateInterval.Interval

/-!
# Date parameters with an interval

`DateParameter`, `MonthParameter`, `YearParameter` and the parameters of hours,
minutes and seconds take every n-th value from a start.  A date is its ordinal,
and a datetime is the number of microseconds since the first day of the year 1.
-/

namespace Trun.Dates

open Calendar

/-- Microseconds per second. -/
abbrev second : ℤ := 1000000

abbrev day : ℤ := 86400 * second

/-- What is given as the value of a parameter. -/
inductive Value where
  | none
  | date (d : ℤ)
  | datetime (t : ℤ)
  | interval (i : DateInterval)

inductive ParamError where
  | date (error : DateError)
  | typeError
  | attributeError

/-- A result of the calendar as one of a parameter. -/
def calendar {α : Type} : Except DateError α → Except ParamError α
  | .ok a => .ok a
  | .error error => .error (.date error)

/-- `t + datetime.timedelta(microseconds=delta)`. -/
def addMicros (t delta : ℤ) : Except DateError ℤ :=
  if 0 ≤ t + delta ∧ t + delta < maxOrdinal * day then .ok (t + delta) else .error .overflowError

/-- `t.date()`. -/
def dateOf (t : ℤ) : ℤ := t / day + 1

/-- `datetime.datetime.combine(d, datetime.time.min)`. -/
def midnight (d : ℤ) : ℤ := (d - 1) * day

/-- A parameter by its `interval` and its `start`, a date or a datetime. -/
structure DateParam where
  interval : ℤ
  start : ℤ

/-! ## Days, months and years -/

namespace DateParameter

def nextInEnumeration (self : DateParam) (value : ℤ) : Except DateError ℤ :=
  addDays value self.interval

/-- `normalize` of a date. -/
def clamp (self : DateParam) (value : ℤ) : Except DateError ℤ :=
  let delta := (value - self.start) % self.interval
  addDays value (-delta)

def normalize (self : DateParam) : Value → Except ParamError Value
  | .none => pure .none
  | .datetime t => calendar (.date <$> clamp self (dateOf t))
  | .date d => calendar (.date <$> clamp self d)
  | .interval _ => throw .typeError

end DateParameter

namespace MonthParameter

def addMonths (d months : ℤ) : Except DateError ℤ :=
  let year := yearOf d + (monthOf d + months - 1) / 12
  let month := (monthOf d + months - 1) % 12 + 1
  date year month 1

def nextInEnumeration (self : DateParam) (value : ℤ) : Except DateError ℤ :=
  addMonths value self.interval

def clamp (self : DateParam) (value : ℤ) : Except DateError ℤ :=
  let monthsSinceStart := (yearOf value - yearOf self.start) * 12 +
    (monthOf value - monthOf self.start)
  addMonths self.start (monthsSinceStart - monthsSinceStart % self.interval)

/-- A week or a year has no attribute `year`. -/
def normalize (self : DateParam) : Value → Except ParamError Value
  | .none => pure .none
  | .interval i =>
    if i.kind = .month then calendar (.date <$> clamp self i.dateA) else throw .attributeError
  | .datetime t => calendar (.date <$> clamp self (dateOf t))
  | .date d => calendar (.date <$> clamp self d)

end MonthParameter

namespace YearParameter

/-- `value.replace(year=...)` keeps the month and the day. -/
def nextInEnumeration (self : DateParam) (value : ℤ) : Except DateError ℤ :=
  date (yearOf value + self.interval) (monthOf value) (dayOf value)

def clamp (self : DateParam) (value : ℤ) : Except DateError ℤ :=
  let delta := (yearOf value - yearOf self.start) % self.interval
  date (yearOf value - delta) 1 1

def normalize (self : DateParam) : Value → Except ParamError Value
  | .none => pure .none
  | .interval i =>
    if i.kind = .year then calendar (.date <$> clamp self i.dateA) else throw .attributeError
  | .datetime t => calendar (.date <$> clamp self (dateOf t))
  | .date d => calendar (.date <$> clamp self d)

end YearParameter

/-! ## Hours, minutes and seconds -/

namespace DatetimeParameterBase

/-- `self._timedelta * self.interval`, in seconds; a `timedelta` has up to 999999999 days. -/
def granularity (timedelta : ℤ) (self : DateParam) : Except DateError ℤ :=
  let seconds := timedelta * self.interval
  if -999999999 ≤ seconds / 86400 ∧ seconds / 86400 ≤ 999999999 then .ok seconds
  else .error .overflowError

def nextInEnumeration (timedelta : ℤ) (self : DateParam) (value : ℤ) : Except DateError ℤ := do
  let seconds ← granularity timedelta self
  addMicros value (seconds * second)

/-- `normalize` of a datetime, with `total_seconds` as a whole number. -/
def clamp (timedelta : ℤ) (self : DateParam) (dt : ℤ) : Except DateError ℤ := do
  let dt := dt - dt % second
  let delta := (dt - self.start) / second
  let granularity ← granularity timedelta self
  addMicros dt (-(delta % granularity * second))

def normalize (timedelta : ℤ) (self : DateParam) : Value → Except ParamError Value
  | .none => pure .none
  | .datetime t => calendar (.datetime <$> clamp timedelta self t)
  | .date d => calendar (.datetime <$> clamp timedelta self (midnight d))
  | .interval _ => throw .typeError

end DatetimeParameterBase

/-- The parameters with an interval. -/
inductive DateClass where
  | dateParameter
  | monthParameter
  | yearParameter
  | dateHourParameter
  | dateMinuteParameter
  | dateSecondParameter
  deriving DecidableEq

namespace DateClass

def normalize : DateClass → DateParam → Value → Except ParamError Value
  | .dateParameter => DateParameter.normalize
  | .monthParameter => MonthParameter.normalize
  | .yearParameter => YearParameter.normalize
  | .dateHourParameter => DatetimeParameterBase.normalize 3600
  | .dateMinuteParameter => DatetimeParameterBase.normalize 60
  | .dateSecondParameter => DatetimeParameterBase.normalize 1

def nextInEnumeration : DateClass → DateParam → ℤ → Except DateError ℤ
  | .dateParameter => DateParameter.nextInEnumeration
  | .monthParameter => MonthParameter.nextInEnumeration
  | .yearParameter => YearParameter.nextInEnumeration
  | .dateHourParameter => DatetimeParameterBase.nextInEnumeration 3600
  | .dateMinuteParameter => DatetimeParameterBase.nextInEnumeration 60
  | .dateSecondParameter => DatetimeParameterBase.nextInEnumeration 1

/-- A normalized value, which is a date or a datetime. -/
def value : DateClass → ℤ → Value
  | .dateParameter, n => .date n
  | .monthParameter, n => .date n
  | .yearParameter, n => .date n
  | .dateHourParameter, n => .datetime n
  | .dateMinuteParameter, n => .datetime n
  | .dateSecondParameter, n => .datetime n

/-- `_UNIX_EPOCH`, or its date. -/
def defaultStart (cls : DateClass) : ℤ :=
  match cls.value 0 with
  | .date _ => 719163
  | _ => midnight 719163

/-- `__init__`. -/
def new (cls : DateClass) (interval : Option ℤ) (start : Option ℤ) : DateParam :=
  ⟨interval.getD 1, start.getD cls.defaultStart⟩

end DateClass

/-! ## The step before -/

/-- A parameter of a step with its value there. -/
inductive Param (α : Type) where
  | dated (cls : DateClass) (self : DateParam) (value : Value)
  | dateInterval (i : DateInterval)
  | other (value : α)

/-- `value - datetime.timedelta(seconds=seconds)`; of a date only whole days are taken. -/
def Value.sub (seconds : ℤ) : Value → Except ParamError Value
  | .date d => calendar (.date <$> addDays d (-seconds / 86400))
  | .datetime t => calendar (.datetime <$> addMicros t (-(seconds * second)))
  | .none => throw .typeError
  | .interval _ => throw .typeError

/-- How far `previous` goes back, in seconds. -/
def DateClass.back : DateClass → ℤ
  | .dateParameter => 86400
  | .monthParameter => 86400
  | .yearParameter => 86400
  | .dateHourParameter => 3600
  | .dateMinuteParameter => 60
  | .dateSecondParameter => 1

namespace Param

variable {α : Type}

def isDated : Param α → Bool
  | .dated .. => true
  | .dateInterval _ => true
  | .other _ => false

/-- The loop of `previous`. -/
def moveBack : Param α → Except ParamError (Param α)
  | .dated cls self value => do return .dated cls self (← value.sub cls.back)
  | .dateInterval i => do return .dateInterval (← calendar i.prev)
  | .other value => pure (.other value)

/-- What a new step makes of the value that it is given. -/
def normalize (normalizeOther : α → Except ParamError α) : Param α → Except ParamError (Param α)
  | .dated cls self value => do return .dated cls self (← cls.normalize self value)
  | .dateInterval i => pure (.dateInterval i)
  | .other value => do return .other (← normalizeOther value)

end Param

inductive PreviousError where
  | param (error : ParamError)
  | notImplemented (text : String)

def noStepParameter : PreviousError :=
  .notImplemented "No step parameter - can't determine previous step"

def tooManyParameters : PreviousError :=
  .notImplemented "Too many date-related step parameters - can't determine previous step"

/-- The values of `step.clone(**params)`. -/
def clone {α : Type} (normalizeOther : α → Except ParamError α)
    (params : List (String × Param α)) : Except ParamError (List (String × Param α)) :=
  params.mapM fun param => do return (param.1, ← param.2.normalize normalizeOther)

/-- `util.previous`, by the parameters of the steps. -/
def previous {α : Type} (normalizeOther : α → Except ParamError α)
    (params : List (String × Param α)) : Except PreviousError (List (String × Param α)) :=
  match params.mapM fun param => do return (param.1, ← param.2.moveBack) with
  | .error error => throw (.param error)
  | .ok previousParams =>
    if (params.filter fun param => param.2.isDated).length = 0 then throw noStepParameter
    else if 1 < (params.filter fun param => param.2.isDated).length then throw tooManyParameters
    else
      match clone normalizeOther previousParams with
      | .error error => throw (.param error)
      | .ok step => pure step

end Trun.Dates
