import Mathlib.Data.List.Sort
import Mathlib.Order.Lattice
import Trun.Python.Dict
import Trun.Python.Slice

/-!
# Ranges of recurring steps

`RangeBase.requires` with the three grids of `RangeDailyBase`,
`RangeHourlyBase` and `RangeByMinutesBase`.  A datetime is a number of
microseconds; dates and times of day are quotients and remainders of it.  The
result is computed once and kept by the source, which changes nothing here.
-/

namespace Trun.Tools

universe u

/-- Microseconds per second. -/
abbrev second : ℕ := 1000000

abbrev minute : ℕ := 60 * second
abbrev hour : ℕ := 60 * minute
abbrev day : ℕ := 24 * hour

/-- The days of the years 1 to 9999. -/
abbrev daysOfCalendar : ℕ := 3652059

abbrev endOfTime : ℕ := daysOfCalendar * day

instance minEqOrNat : Std.MinEqOr ℕ := inferInstance
instance maxEqOrNat : Std.MaxEqOr ℕ := inferInstance

/-- Microseconds since the first day of the year 1. -/
abbrev Datetime := { micros : ℕ // micros < endOfTime }

/-- Days since the first day of the year 1. -/
abbrev Date := { days : ℕ // days < daysOfCalendar }

abbrev epoch : ℕ := 719162 * day

inductive Fault where
  /-- `ParameterException`. -/
  | parameter (text : String)
  /-- `OverflowError`: the result is no datetime of the years 1 to 9999. -/
  | overflow
  /-- `StopIteration` of `_param_name`. -/
  | noPositionalParam
  /-- `ValueError` of `list.index`. -/
  | notInList
  deriving DecidableEq

/-- The datetime with these microseconds. -/
def datetimeAt (micros : ℤ) : Except Fault Datetime :=
  if h : micros.toNat < endOfTime ∧ 0 ≤ micros then .ok ⟨micros.toNat, h.1⟩ else .error .overflow

namespace Datetime

/-- `t + timedelta(…)`. -/
def add (t : Datetime) (delta : ℤ) : Except Fault Datetime := datetimeAt (t.1 + delta)

/-- The last multiple of a unit up to a datetime. -/
def floor (t : Datetime) (unit : ℕ) : Datetime :=
  ⟨t.1 - t.1 % unit, lt_of_le_of_lt (Nat.sub_le ..) t.2⟩

def date (t : Datetime) : Date :=
  ⟨t.1 / day, Nat.div_lt_of_lt_mul (by rw [Nat.mul_comm]; exact t.2)⟩

end Datetime

/-- `datetime(d.year, d.month, d.day)`. -/
def Date.midnight (d : Date) : Datetime :=
  ⟨d.1 * day, Nat.mul_lt_mul_of_pos_right d.2 (by decide)⟩

/-- The loop of `finite_datetimes` over the points of a grid.  The fuel is more than there are
datetimes. -/
def gather (unit : ℕ) (finiteStart finiteStop : Datetime) :
    ℕ → Datetime → Except Fault (List Datetime)
  | 0, _ => .error .overflow
  | fuel + 1, t =>
    if finiteStop ≤ t then .ok []
    else
      match t.add unit with
      | .error fault => .error fault
      | .ok next =>
        match gather unit finiteStart finiteStop fuel next with
        | .error fault => .error fault
        | .ok rest => .ok (if finiteStart ≤ t then t :: rest else rest)

/-- What the subclasses of `RangeBase` provide, for a type of parameters. -/
structure RangeClass (P : Type) where
  /-- `datetime_to_parameter`. -/
  toParameter : Datetime → P
  /-- `parameter_to_datetime`. -/
  toDatetime : P → Datetime
  /-- The unit of the moving bounds. -/
  extent : ℕ
  finiteDatetimes : Datetime → Datetime → Except Fault (List Datetime)

def rangeDailyBase : RangeClass Date where
  toParameter := Datetime.date
  toDatetime := Date.midnight
  extent := day
  finiteDatetimes finiteStart finiteStop :=
    gather day finiteStart finiteStop endOfTime (finiteStart.floor day)

def rangeHourlyBase : RangeClass Datetime where
  toParameter := id
  toDatetime := id
  extent := hour
  finiteDatetimes finiteStart finiteStop :=
    gather hour finiteStart finiteStop endOfTime (finiteStart.floor hour)

/-- The start of a complete interval: the hour with the minute rounded down. -/
def startOfInterval (t : Datetime) (minutesInterval : ℕ) : Except Fault Datetime :=
  (t.floor hour).add ((t.1 / minute % 60 / minutesInterval * minutesInterval * minute : ℕ) : ℤ)

def rangeByMinutesBase (minutesInterval : ℤ) : RangeClass Datetime where
  toParameter := id
  toDatetime := id
  extent := minute
  finiteDatetimes finiteStart finiteStop :=
    if ¬(0 < minutesInterval ∧ minutesInterval < 60) then
      .error (.parameter "minutes-interval must be within 0..60")
    else if 60 % minutesInterval ≠ 0 then
      .error (.parameter "minutes-interval does not evenly divide 60")
    else
      match startOfInterval finiteStart minutesInterval.toNat with
      | .error fault => .error fault
      | .ok first => gather (minutesInterval.toNat * minute) finiteStart finiteStop endOfTime first

/-- The class of the recurring steps, for values `V` of parameters. -/
structure StepClass (V : Type u) (S : Type) where
  /-- The names of `get_params`, and which of them are positional. -/
  params : List (String × Bool)
  make : Dict String V → S
  complete : S → Bool

structure Range (P : Type) (V : Type u) (S : Type) where
  kind : RangeClass P
  of : StepClass V S
  /-- A parameter as a value. -/
  embed : P → V
  ofParams : Dict String V := ∅
  start : Option P := none
  stop : Option P := none
  reverse : Bool := false
  stepLimit : ℤ := 50
  /-- In seconds since the epoch. -/
  now : Option ℤ := none
  paramName : Option String := none
  /-- `days_back`, `hours_back` or `minutes_back`. -/
  back : ℤ
  /-- `days_forward`, `hours_forward` or `minutes_forward`. -/
  forward : ℤ := 0
  /-- `datetime.utcfromtimestamp(time.time())`. -/
  clock : Datetime

/-- What `_emit_metrics` reports. -/
structure Metrics where
  delayInJobs : ℕ
  expectedCount : ℕ
  completeCount : ℤ

namespace Range

variable {P : Type} [LinearOrder P] {V : Type u} {S : Type} (range : Range P V S)

def paramNameOf : Except Fault String :=
  match range.paramName with
  | some name => .ok name
  | none =>
    match range.of.params.find? Prod.snd with
    | some param => .ok param.1
    | none => .error .noPositionalParam

/-- `_instantiate_step_cls` for a datetime. -/
def instantiate (t : Datetime) : Except Fault S :=
  match range.paramNameOf with
  | .error fault => .error fault
  | .ok name =>
      .ok (range.of.make (range.ofParams.set name (range.embed (range.kind.toParameter t))))

def missingDatetimes : List Datetime → Except Fault (List Datetime)
  | [] => .ok []
  | t :: rest =>
    match range.instantiate t with
    | .error fault => .error fault
    | .ok step =>
      match missingDatetimes rest with
      | .error fault => .error fault
      | .ok missing => .ok (if range.of.complete step then missing else t :: missing)

/-- `datetimes.index(t)`. -/
def indexOf (datetimes : List Datetime) (t : Datetime) : Except Fault ℕ :=
  if t ∈ datetimes then .ok (datetimes.idxOf t) else .error .notInList

def emitMetrics (missing : List Datetime) (finiteStart finiteStop : Datetime) :
    Except Fault Metrics := do
  let datetimes ← range.kind.finiteDatetimes
    (range.start.elim finiteStart fun start => min finiteStart (range.kind.toDatetime start))
    (range.stop.elim finiteStop fun stop => max finiteStop (range.kind.toDatetime stop))
  let delay ←
    match datetimes, missing with
    | _ :: _, first :: _ => do
        let index ← indexOf datetimes first
        pure (datetimes.length - index)
    | _, _ => pure 0
  pure ⟨delay, datetimes.length, datetimes.length - missing.length⟩

/-- `datetime.utcfromtimestamp`, of `now` or of the clock. -/
def utcnow : Except Fault Datetime :=
  match range.now with
  | some seconds => datetimeAt (epoch + seconds * second)
  | none => .ok range.clock

def required (missing : List Datetime) : List Datetime :=
  if range.reverse then (sliceFrom missing (-range.stepLimit)).reverse
  else sliceTo missing range.stepLimit

/-- The datetimes of the interval that are not complete, sorted. -/
def findMissing (datetimes : List Datetime) : Except Fault (List Datetime) :=
  if datetimes.isEmpty then .ok []
  else (range.missingDatetimes datetimes).map (List.insertionSort (· ≤ ·))

def datetimes (finiteStart finiteStop : Datetime) : Except Fault (List Datetime) :=
  if finiteStart ≤ finiteStop then range.kind.finiteDatetimes finiteStart finiteStop else .ok []

/-- `requires`, once the parameters have been checked. -/
def requiresChecked : Except Fault (List S) := do
  let now ← range.utcnow
  let movingStart ← now.add (-(range.back * range.kind.extent))
  let finiteStart := range.start.elim movingStart fun start =>
    max (range.kind.toDatetime start) movingStart
  let movingStop ← now.add (range.forward * range.kind.extent)
  let finiteStop := range.stop.elim movingStop fun stop =>
    min (range.kind.toDatetime stop) movingStop
  let datetimes ← range.datetimes finiteStart finiteStop
  let missing ← range.findMissing datetimes
  let _ ← range.emitMetrics missing finiteStart finiteStop
  (range.required missing).mapM range.instantiate

def requires : Except Fault (List S) :=
  if range.start.isNone ∧ range.stop.isNone then
    .error (.parameter "At least one of start and stop needs to be specified")
  else if range.start.isNone ∧ range.reverse = false then
    .error (.parameter "Either start needs to be specified or reverse needs to be True")
  else if ∃ start ∈ range.start, ∃ stop ∈ range.stop, stop < start then
    .error (.parameter "Can't have start > stop")
  else range.requiresChecked

end Range

end Trun.Tools
