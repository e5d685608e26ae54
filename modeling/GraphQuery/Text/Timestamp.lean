import GraphQuery.Text.Digits

/-! Timestamps with an offset, and the same instant written in universal time. An offset counts whole
minutes, so moving to universal time changes the date and the minute of the day but leaves the
seconds, a leap second included. -/

namespace GraphQuery.Text

/-- A day of the proleptic Gregorian calendar. -/
structure Date where
  year : Int
  month : Nat
  day : Nat
deriving DecidableEq, Repr

namespace Date

def isLeapYear (year : Int) : Bool :=
  year % 4 = 0 && (year % 100 ≠ 0 || year % 400 = 0)

def daysInMonth (year : Int) (month : Nat) : Nat :=
  if month = 2 then (if isLeapYear year then 29 else 28)
  else if month = 4 ∨ month = 6 ∨ month = 9 ∨ month = 11 then 30
  else 31

/-- Is there such a day? -/
def isValid (d : Date) : Bool :=
  1 ≤ d.month && d.month ≤ 12 && 1 ≤ d.day && d.day ≤ daysInMonth d.year d.month

/-- The day after. -/
def next (d : Date) : Date :=
  if d.day < daysInMonth d.year d.month then { d with day := d.day + 1 }
  else if d.month < 12 then { d with month := d.month + 1, day := 1 }
  else ⟨d.year + 1, 1, 1⟩

/-- The day before. -/
def previous (d : Date) : Date :=
  if 1 < d.day then { d with day := d.day - 1 }
  else if 1 < d.month then { d with month := d.month - 1, day := daysInMonth d.year (d.month - 1) }
  else ⟨d.year - 1, 12, 31⟩

end Date

/-- An instant in universal time; second 60 is a leap second. -/
structure Timestamp where
  date : Date
  minute : Nat
  second : Nat
  nanosecond : Nat
deriving DecidableEq, Repr

namespace Timestamp

/-- A number of exactly so many digits. -/
def fixedNumber (count : Nat) (input : List Char) : Option (Nat × List Char) :=
  let digits := input.take count
  if digits.length = count ∧ digits.all Char.isDigit then
    some (ofDigits digits, input.drop count)
  else none

def expect (c : Char) : List Char → Option (List Char)
  | first :: rest => if first = c then some rest else none
  | [] => none

def readDate (input : List Char) : Option (Date × List Char) := do
  let (year, rest) ← fixedNumber 4 input
  let (month, rest) ← fixedNumber 2 (← expect '-' rest)
  let (day, rest) ← fixedNumber 2 (← expect '-' rest)
  let date : Date := ⟨year, month, day⟩
  if date.isValid then pure (date, rest) else none

/-- The mark between date and time. -/
def readDivider : List Char → Option (List Char)
  | 'T' :: rest => some rest
  | 't' :: rest => some rest
  | ' ' :: rest => some rest
  | _ => none

/-- Hours and minutes as minutes, when both are in range. -/
def readMinutes (input : List Char) : Option (Nat × List Char) := do
  let (hour, rest) ← fixedNumber 2 input
  let (minute, rest) ← fixedNumber 2 (← expect ':' rest)
  if hour ≤ 23 ∧ minute ≤ 59 then pure (60 * hour + minute, rest) else none

/-- The fraction of a second in nanoseconds; digits past the ninth do not count. -/
def readFraction (input : List Char) : Option (Nat × List Char) :=
  match input with
  | '.' :: rest =>
    let digits := rest.takeWhile Char.isDigit
    if digits.isEmpty then none
    else
      let kept := digits.take 9
      some (ofDigits (kept ++ List.replicate (9 - kept.length) '0'), rest.dropWhile Char.isDigit)
  | _ => some (0, input)

/-- The offset in minutes, east of universal time positive. A minus sign may stand for the hyphen. -/
def readOffset (input : List Char) : Option (Int × List Char) :=
  match input with
  | 'Z' :: rest => some (0, rest)
  | 'z' :: rest => some (0, rest)
  | '+' :: rest => (readMinutes rest).map fun (minutes, rest) => ((minutes : Int), rest)
  | '-' :: rest => (readMinutes rest).map fun (minutes, rest) => (-(minutes : Int), rest)
  | '\u2212' :: rest => (readMinutes rest).map fun (minutes, rest) => (-(minutes : Int), rest)
  | _ => none

/-- The day and the minute of the day that lie so many minutes, less than a day, after a midnight. -/
def normalized (date : Date) (minutes : Int) : Date × Nat :=
  if minutes < 0 then (date.previous, (minutes + 1440).toNat)
  else if minutes < 1440 then (date, minutes.toNat)
  else (date.next, (minutes - 1440).toNat)

/-- The instant that a text writes. -/
def read? (input : List Char) : Option Timestamp := do
  let (date, rest) ← readDate input
  let (minutes, rest) ← readMinutes (← readDivider rest)
  let (second, rest) ← fixedNumber 2 (← expect ':' rest)
  let (nanosecond, rest) ← readFraction rest
  let (offset, rest) ← readOffset rest
  if second ≤ 60 ∧ rest.isEmpty then
    let (date, minute) := normalized date ((minutes : Int) - offset)
    pure ⟨date, minute, second, nanosecond⟩
  else none

/-- A number with zeros in front up to a width. -/
def padded (width n : Nat) : List Char :=
  let digits := Nat.toDigits 10 n
  List.replicate (width - digits.length) '0' ++ digits

/-- Four digits; a sign in front of a year that four digits do not hold. -/
def yearText (year : Int) : List Char :=
  if 0 ≤ year ∧ year ≤ 9999 then padded 4 year.toNat
  else (if year < 0 then '-' else '+') :: padded 4 year.natAbs

/-- The fraction in three, six or nine digits, as few as hold it. -/
def fractionText (nanosecond : Nat) : List Char :=
  if nanosecond = 0 then []
  else if nanosecond % 1000000 = 0 then '.' :: padded 3 (nanosecond / 1000000)
  else if nanosecond % 1000 = 0 then '.' :: padded 6 (nanosecond / 1000)
  else '.' :: padded 9 nanosecond

/-- The text of an instant in universal time. -/
def text (t : Timestamp) : List Char :=
  yearText t.date.year ++ '-' :: padded 2 t.date.month ++ '-' :: padded 2 t.date.day ++
    'T' :: padded 2 (t.minute / 60) ++ ':' :: padded 2 (t.minute % 60) ++
    ':' :: padded 2 t.second ++ fractionText t.nanosecond ++ ['+', '0', '0', ':', '0', '0']

/-- The text in universal time of the instant that a text writes. -/
def normalize? (s : String) : Option String :=
  (read? s.toList).map fun t => String.ofList t.text

end Timestamp

end GraphQuery.Text
