import Trun.Python.Calendar

/-!
# Date intervals

`date_interval.py` and `DateIntervalParameter.parse`.  Texts are lists of characters.
-/

namespace Trun

open Calendar

/-- The exceptions. -/
inductive DateError where
  | valueError
  | overflowError
  | notImplementedError
  deriving DecidableEq

/-- `datetime.date.max`. -/
def maxOrdinal : ℤ := 3652059

def date (year month day : ℤ) : Except DateError ℤ :=
  if (1 ≤ year ∧ year ≤ 9999) ∧ (1 ≤ month ∧ month ≤ 12) ∧ 1 ≤ day ∧ day ≤ daysInMonth year month
  then .ok (toOrdinal year month day)
  else .error .valueError

/-- `ordinal + datetime.timedelta(days)`. -/
def addDays (ordinal days : ℤ) : Except DateError ℤ :=
  if 1 ≤ ordinal + days ∧ ordinal + days ≤ maxOrdinal then .ok (ordinal + days)
  else .error .overflowError

/-- The classes of intervals. -/
inductive Kind where
  | date
  | week
  | month
  | year
  | custom
  deriving DecidableEq

/-- The days from `dateA` up to, but without, `dateB`. -/
structure DateInterval where
  kind : Kind
  dateA : ℤ
  dateB : ℤ
  deriving DecidableEq

namespace DateInterval

/-! ## The classes -/

/-- `Date(y, m, d)`. -/
def newDate (y m d : ℤ) : Except DateError DateInterval := do
  let a ← date y m d
  let b ← addDays a 1
  pure ⟨.date, a, b⟩

/-- The loop of `Week.__init__`. -/
def findWeek (y w : ℤ) : List ℤ → Except DateError ℤ
  | [] => .error .valueError
  | d :: rest =>
    match (date y 1 1).bind (addDays · d) with
    | .error error => .error error
    | .ok found => if isocalendar found = (y, w, 1) then .ok found else findWeek y w rest

/-- `range(-10, 370)`. -/
def weekOffsets : List ℤ := (List.range' 0 380).map fun n : ℕ => (n : ℤ) - 10

/-- `Week(y, w)`. -/
def newWeek (y w : ℤ) : Except DateError DateInterval := do
  let a ← findWeek y w weekOffsets
  let b ← addDays a 7
  pure ⟨.week, a, b⟩

/-- `Month(y, m)`. -/
def newMonth (y m : ℤ) : Except DateError DateInterval := do
  let a ← date y m 1
  let b ← date (y + m / 12) (1 + m % 12) 1
  pure ⟨.month, a, b⟩

/-- `Year(y)`. -/
def newYear (y : ℤ) : Except DateError DateInterval := do
  let a ← date y 1 1
  let b ← date (y + 1) 1 1
  pure ⟨.year, a, b⟩

def fromDate (kind : Kind) (d : ℤ) : Except DateError DateInterval :=
  match kind with
  | .date => newDate (yearOf d) (monthOf d) (dayOf d)
  | .week => newWeek (isocalendar d).1 (isocalendar d).2.1
  | .month => newMonth (yearOf d) (monthOf d)
  | .year => newYear (yearOf d)
  | .custom => .error .notImplementedError

def next (i : DateInterval) : Except DateError DateInterval := fromDate i.kind i.dateB

def prev (i : DateInterval) : Except DateError DateInterval := do
  fromDate i.kind (← addDays i.dateA (-1))

def dates (i : DateInterval) : List ℤ :=
  (List.range (i.dateB - i.dateA).toNat).map fun n : ℕ => i.dateA + (n : ℤ)

/-- `d in i`. -/
def contains (i : DateInterval) (d : ℤ) : Bool := d ∈ i.dates

/-! ## Texts -/

/-- `%d` of a number that is not negative. -/
def decimal (n : ℤ) : List Char := Nat.toDigits 10 n.toNat

/-- `%02d`, and `strftime`'s fields, which are filled up with zeros. -/
def padded (width : ℕ) (n : ℤ) : List Char := (decimal n).leftpad width '0'

/-- `strftime('%Y-%m-%d')`. -/
def dateText (d : ℤ) : List Char :=
  padded 4 (yearOf d) ++ '-' :: (padded 2 (monthOf d) ++ '-' :: padded 2 (dayOf d))

def toString (i : DateInterval) : List Char :=
  match i.kind with
  | .date => dateText i.dateA
  | .week => decimal (isocalendar i.dateA).1 ++ '-' :: 'W' :: padded 2 (isocalendar i.dateA).2.1
  | .month => padded 4 (yearOf i.dateA) ++ '-' :: padded 2 (monthOf i.dateA)
  | .year => padded 4 (yearOf i.dateA)
  | .custom => dateText i.dateA ++ '-' :: dateText i.dateB

/-- One character of a regular expression. -/
inductive Piece where
  /-- `\d`; of all digits only the ASCII ones are kept. -/
  | digit
  | char (c : Char)

def Piece.accepts : Piece → Char → Bool
  | .digit, c => c.isDigit
  | .char expected, c => c = expected

/-- `re.match` with a `$` at the end, which also accepts a last newline. -/
def matchesPattern : List Piece → List Char → Bool
  | [], rest => rest = [] || rest = ['\n']
  | _ :: _, [] => false
  | piece :: pieces, c :: rest => piece.accepts c && matchesPattern pieces rest

def yearPattern : List Piece := [.digit, .digit, .digit, .digit]
def monthPattern : List Piece := yearPattern ++ [.char '-', .digit, .digit]
def weekPattern : List Piece := yearPattern ++ [.char '-', .char 'W', .digit, .digit]
def datePattern : List Piece := monthPattern ++ [.char '-', .digit, .digit]
def customPattern : List Piece := datePattern ++ .char '-' :: datePattern

/-- `text.split(separator)`; the number says how many characters of a separator are still to be
skipped. -/
def splitAfter (separator : List Char) : ℕ → List Char → List (List Char)
  | _, [] => [[]]
  | skip + 1, _ :: rest => splitAfter separator skip rest
  | 0, c :: rest =>
    if separator.isPrefixOf (c :: rest) then [] :: splitAfter separator (separator.length - 1) rest
    else
      match splitAfter separator 0 rest with
      | [] => [[c]]
      | part :: parts => (c :: part) :: parts

/-- `int` of digits, before which and after which there may be white space. -/
def toInt (text : List Char) : ℤ :=
  (text.filter Char.isDigit).foldl (fun n c => n * 10 + ((c.toNat : ℤ) - 48)) 0

/-- `map(int, s.split(separator))`. -/
def numbers (separator s : List Char) : List ℤ := (splitAfter separator 0 s).map toInt

/-- `cls.parse`.  The patterns leave no other number of parts than those that are taken. -/
def parseKind (kind : Kind) (s : List Char) : Except DateError (Option DateInterval) :=
  match kind with
  | .year => if matchesPattern yearPattern s then some <$> newYear (toInt s) else .ok none
  | .month =>
    if matchesPattern monthPattern s then
      match numbers ['-'] s with
      | [y, m] => some <$> newMonth y m
      | _ => .error .valueError
    else .ok none
  | .week =>
    if matchesPattern weekPattern s then
      match numbers ['-', 'W'] s with
      | [y, w] => some <$> newWeek y w
      | _ => .error .valueError
    else .ok none
  | .date =>
    if matchesPattern datePattern s then
      match numbers ['-'] s with
      | [y, m, d] => some <$> newDate y m d
      | _ => .error .valueError
    else .ok none
  | .custom =>
    if matchesPattern customPattern s then
      match numbers ['-'] s with
      | [y, m, d, y', m', d'] => do
        let a ← date y m d
        let b ← date y' m' d'
        pure (some ⟨.custom, a, b⟩)
      | _ => .error .valueError
    else .ok none

/-- The loop of `DateIntervalParameter.parse`. -/
def parseFirst : List Kind → List Char → Except DateError DateInterval
  | [], _ => .error .valueError
  | kind :: rest, s =>
    match parseKind kind s with
    | .error error => .error error
    | .ok (some i) => .ok i
    | .ok none => parseFirst rest s

def parse (s : List Char) : Except DateError DateInterval :=
  parseFirst [.year, .month, .week, .date, .custom] s

end DateInterval

end Trun
