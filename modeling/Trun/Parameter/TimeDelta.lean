import Mathlib.Algebra.BigOperators.Group.List.Basic
import Mathlib.Algebra.Ring.Nat
import Trun.Python.Regex

/-!
# Durations as parameters

`TimeDeltaParameter` reads a duration with two regular expressions that are put
together from the names of the units, and tries one after the other at the
beginning of the text.  Digits are those of Unicode.
-/

namespace Trun.TimeDelta

/-- `datetime.timedelta`, in microseconds. -/
structure Timedelta where
  micros : ℤ
  inRange : -999999999 * 86400000000 ≤ micros ∧ micros < 1000000000 * 86400000000

namespace Timedelta

def days (x : Timedelta) : ℤ := x.micros / 86400000000
def seconds (x : Timedelta) : ℤ := x.micros % 86400000000 / 1000000
def microseconds (x : Timedelta) : ℤ := x.micros % 1000000

theorem ext_micros {x y : Timedelta} (heq : x.micros = y.micros) : x = y := by
  cases x
  cases y
  cases heq
  rfl

instance : DecidableEq Timedelta := fun x y =>
  decidable_of_iff (x.micros = y.micros) ⟨ext_micros, congrArg micros⟩

end Timedelta

inductive TimeDeltaError where
  | overflowError
  | parameterException (message : String)
  deriving DecidableEq

/-- What `datetime.timedelta(seconds=float(text))` does. -/
inductive Seconds where
  | ok (x : Timedelta)
  | valueError
  | overflowError

/-- Numbers as texts; no number has a `w`. -/
structure Floats where
  seconds : List Char → Seconds
  letters : ∀ text, 'w' ∈ text → seconds text = .valueError

/-- The decimal digits of Unicode, with their values; among the ASCII characters they are
`0` to `9`. -/
structure Decimals where
  digit : Char → Option ℕ
  ascii : ∀ n < 10, digit (Nat.digitChar n) = some n
  others : ∀ c, c.toNat < 128 → c.isDigit = false → digit c = none

def Decimals.isDecimal (d : Decimals) (c : Char) : Bool := (d.digit c).isSome

/-- `int` of a text of digits. -/
def Decimals.int (d : Decimals) (text : List Char) : ℕ :=
  text.foldl (fun n c => n * 10 + (d.digit c).getD 0) 0

/-! ## The units -/

inductive Key where
  | weeks
  | days
  | hours
  | minutes
  | seconds
  deriving DecidableEq

namespace Key

def name : Key → String
  | .weeks => "weeks"
  | .days => "days"
  | .hours => "hours"
  | .minutes => "minutes"
  | .seconds => "seconds"

/-- `key[0]` -/
def letter (key : Key) : Char := key.name.toList.headD ' '

/-- `key[1:-1]` -/
def middle (key : Key) : List Char := key.name.toList.tail.dropLast

/-- `key[-1]` -/
def plural (key : Key) : Char := key.name.toList.getLastD ' '

/-- `key[0].upper()` -/
def upper (key : Key) : Char := key.letter.toUpper

def length : Key → ℕ
  | .weeks => 604800
  | .days => 86400
  | .hours => 3600
  | .minutes => 60
  | .seconds => 1

theorem name_injective : ∀ key other : Key, key.name = other.name → key = other := by
  intro key other heq
  cases key <;> cases other <;> first | rfl | exact absurd heq (by decide)

end Key

def keys : List Key := [.weeks, .days, .hours, .minutes, .seconds]

/-- `datetime.timedelta(seconds=seconds)`. -/
def ofSeconds (seconds : ℕ) : Except TimeDeltaError Timedelta :=
  if h : seconds < 1000000000 * 86400 then
    .ok ⟨seconds * 1000000, by constructor <;> omega⟩
  else .error .overflowError

/-- `datetime.timedelta(**kwargs)`, for the values of the units. -/
def timedelta (kwargs : Key → ℕ) : Except TimeDeltaError Timedelta :=
  ofSeconds (keys.map fun key => kwargs key * key.length).sum

/-! ## The two expressions -/

section Model

variable (d : Decimals)

def applyRegex (regex : Regex Char) (input : List Char) :
    Except TimeDeltaError (Option Timedelta) :=
  match regex.match? input with
  | some found =>
    if found.groups.any fun group => !group.2.isEmpty then
      some <$> timedelta fun key => d.int ((found.groups.lookup (some key.name)).getD ['0'])
    else pure none
  | none => pure none

/-- `r"(?P<%s>\d+)%s" % (key, key[0].upper())` -/
def field (key : Key) : Regex Char :=
  .seq (.group (some key.name) (.run d.isDecimal)) (.char (· = key.upper))

/-- `"(%s)?" % field(key)` -/
def optionalField (key : Key) : Regex Char := .opt (.group none (field d key))

/-- `"".join` -/
def join : List (Regex Char) → Regex Char
  | [] => .empty
  | r :: rest => .seq r (join rest)

/-- `P(weeks|days(Ttime)?)`, with every part of the second form optional. -/
def iso8601 : Regex Char :=
  .seq (.char (· = 'P')) (.group none (.alt (field d .weeks)
    (.seq (optionalField d .days) (.opt (.group none (.seq (.char (· = 'T'))
      (join ([Key.hours, .minutes, .seconds].map (optionalField d)))))))))

def parseIso8601 (input : List Char) : Except TimeDeltaError (Option Timedelta) :=
  applyRegex d (iso8601 d) input

/-- `r"((?P<%s>\d+) ?%s(%s)?(%s)? ?)?" % (k, k[0], k[1:-1], k[-1])` -/
def simpleField (k : Key) : Regex Char :=
  .opt (.group none (.seq (.group (some k.name) (.run d.isDecimal))
    (.seq (.opt (.char (· = ' '))) (.seq (.char (· = k.letter))
      (.seq (.opt (.group none (.literal k.middle)))
        (.seq (.opt (.group none (.char (· = k.plural)))) (.opt (.char (· = ' ')))))))))

def parseSimple (input : List Char) : Except TimeDeltaError (Option Timedelta) :=
  applyRegex d (join (keys.map (simpleField d))) input

/-- The truth value of what a parser returns. -/
def truthy : Option Timedelta → Bool
  | some x => x.micros ≠ 0
  | none => false

def parse (floats : Floats) (input : List Char) : Except TimeDeltaError Timedelta :=
  match floats.seconds input with
  | .ok x => pure x
  | .overflowError => throw .overflowError
  | .valueError => do
    let result ← parseIso8601 d input
    let result ← if truthy result then pure result else parseSimple d input
    match result with
    | some x => pure x
    | none => throw (.parameterException
        ("Invalid time delta - could not parse " ++ String.ofList input))

end Model

/-- `str` of an integer. -/
def str (n : ℤ) : List Char :=
  if n < 0 then '-' :: Nat.toDigits 10 n.natAbs else Nat.toDigits 10 n.natAbs

def serialize (x : Timedelta) : List Char :=
  let weeks := x.days / 7
  let days := x.days % 7
  let hours := x.seconds / 3600
  let minutes := x.seconds % 3600 / 60
  let seconds := x.seconds % 3600 % 60
  str weeks ++ " w ".toList ++ str days ++ " d ".toList ++ str hours ++ " h ".toList ++
    str minutes ++ " m ".toList ++ str seconds ++ " s".toList

/-- The digits of ASCII alone. -/
def asciiDecimals : Decimals where
  digit c := if c.isDigit then some (c.toNat - 48) else none
  ascii := by decide
  others := by
    intro c _ hc
    simp [hc]

/-- A reader of numbers that takes none of the texts. -/
def noFloats : Floats := ⟨fun _ => .valueError, fun _ _ => rfl⟩

example : (parse asciiDecimals noFloats "1 week 2 days".toList).map Timedelta.micros =
    .ok (9 * 86400000000) := by decide

end Trun.TimeDelta
