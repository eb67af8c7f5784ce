import SheetPackages.Text.Ascii
import SheetPackages.Text.Blank

/-!
# Instants

A point in time, as the nanoseconds since the beginning of 1970 in universal time. It is written as
date and time with nine decimals of a second and a `Z`. When it is read, the date and the time may
be separated by a blank too, blanks may stand before numbers, further decimals are dropped, and an
offset from universal time may be given.
-/

namespace SheetPackages

structure Instant where
  nanoseconds : Int
deriving DecidableEq

namespace Instant

def nanosecondsPerSecond : Int := 1000000000

/-! ## Calendar -/

/-- The days from the beginning of 1970 to a date. Years are taken to begin in March, so that the
day that leap years add is their last one. -/
def dayNumber (year month day : Int) : Int :=
  let y := if month ≤ 2 then year - 1 else year
  let era := y / 400
  let yearOfEra := y % 400
  let dayOfYear := (153 * ((month + 9) % 12) + 2) / 5 + day - 1
  era * 146097 + yearOfEra * 365 + yearOfEra / 4 - yearOfEra / 100 + dayOfYear - 719468

/-- The year, month and day of a day number. -/
def dateOf (dayNumber : Int) : Int × Int × Int :=
  let z := dayNumber + 719468
  let era := z / 146097
  let dayOfEra := z % 146097
  let yearOfEra := (dayOfEra - dayOfEra / 1460 + dayOfEra / 36524 - dayOfEra / 146096) / 365
  let dayOfYear := dayOfEra - (365 * yearOfEra + yearOfEra / 4 - yearOfEra / 100)
  let shifted := (5 * dayOfYear + 2) / 153
  let day := dayOfYear - (153 * shifted + 2) / 5 + 1
  let month := if shifted < 10 then shifted + 3 else shifted - 9
  let year := yearOfEra + era * 400
  (if month ≤ 2 then year + 1 else year, month, day)

def isLeapYear (year : Int) : Bool :=
  year % 4 = 0 && (year % 100 ≠ 0 || year % 400 = 0)

def daysIn (year : Int) (month : Nat) : Nat :=
  if month = 2 then if isLeapYear year then 29 else 28
  else if month = 4 ∨ month = 6 ∨ month = 9 ∨ month = 11 then 30
  else 31

/-! ## Writing -/

/-- A number with zeros in front, in at least `width` digits. -/
def padded (width : Nat) (n : Int) : List Char :=
  let digits := Decimal.digits n.natAbs
  List.replicate (width - digits.length) '0' ++ digits

/-- A year; outside of four digits it has a sign. -/
def yearText (year : Int) : List Char :=
  if 0 ≤ year ∧ year ≤ 9999 then padded 4 year
  else (if year < 0 then '-' else '+') :: padded 5 year

def text (t : Instant) : String :=
  let seconds := t.nanoseconds / nanosecondsPerSecond
  let (year, month, day) := dateOf (seconds / 86400)
  let ofDay := seconds % 86400
  String.ofList (yearText year ++ '-' :: padded 2 month ++ '-' :: padded 2 day ++
    'T' :: padded 2 (ofDay / 3600) ++ ':' :: padded 2 (ofDay / 60 % 60) ++
    ':' :: padded 2 (ofDay % 60) ++ '.' :: padded 9 (t.nanoseconds % nanosecondsPerSecond) ++ ['Z'])

/-! ## Reading -/

/-- A number of at least one and at most `width` digits, within bounds. -/
def number? (width low high : Nat) (s : List Char) : Option (Nat × List Char) :=
  let digits := (s.take width).takeWhile Decimal.isDigit
  let n := Decimal.value digits
  if digits ≠ [] ∧ low ≤ n ∧ n ≤ high then some (n, s.drop digits.length) else none

/-- The rest behind an expected character, before which blanks may stand. -/
def behind? (c : Char) (s : List Char) : Option (List Char) :=
  match Text.trimLeft s with
  | d :: rest => if d = c then some rest else none
  | [] => none

def highestYear : Nat := 262142

/-- A year: four digits at most, or any number of them behind a sign. -/
def year? (s : List Char) : Option (Int × List Char) :=
  match Text.trimLeft s with
  | '-' :: rest => (number? rest.length 0 (highestYear + 1) rest).map fun (n, s) ↦ (-(n : Int), s)
  | '+' :: rest => (number? rest.length 0 highestYear rest).map fun (n, s) ↦ ((n : Int), s)
  | s => (number? 4 0 9999 s).map fun (n, s) ↦ ((n : Int), s)

/-- The nanoseconds in the decimals of a second, if there are any. -/
def decimals? : List Char → Option (Nat × List Char)
  | '.' :: rest =>
    let digits := (rest.take 9).takeWhile Decimal.isDigit
    if digits = [] then none
    else some (Decimal.value digits * Decimal.powerOfTen (9 - digits.length),
      rest.dropWhile Decimal.isDigit)
  | s => some (0, s)

def isMinus (c : Char) : Bool :=
  c = '-' || c = '−'

/-- The offset from universal time, in seconds. -/
def offset? : List Char → Option (Int × List Char)
  | c :: rest =>
    if c = 'Z' ∨ c = 'z' then some (0, rest)
    else if ((c :: rest).take 3).map Text.lower = ['u', 't', 'c'] then some (0, rest.drop 2)
    else if c = '+' ∨ isMinus c then do
      if !(rest.take 2).all Decimal.isDigit then none
      let (hours, rest) ← number? 2 0 23 rest
      let rest := rest.dropWhile fun d ↦ d = ':' || Text.isBlank d
      if (rest.take 2).length < 2 ∨ !(rest.take 2).all Decimal.isDigit then none
      let (minutes, rest) ← number? 2 0 59 rest
      let seconds : Int := hours * 3600 + minutes * 60
      return (if isMinus c then -seconds else seconds, rest)
    else none
  | [] => none

def ofChars? (s : List Char) : Option Instant := do
  let (year, s) ← year? s
  let (month, s) ← number? 2 1 12 (Text.trimLeft (← behind? '-' s))
  let (day, s) ← number? 2 1 (daysIn year month) (Text.trimLeft (← behind? '-' s))
  let s ← match s with
    | c :: rest => if c = 'T' ∨ c = 't' ∨ c = ' ' then some rest else none
    | [] => none
  let (hour, s) ← number? 2 0 23 (Text.trimLeft s)
  let (minute, s) ← number? 2 0 59 (Text.trimLeft (← behind? ':' s))
  let (second, s) ← number? 2 0 60 (Text.trimLeft (← behind? ':' s))
  let (fraction, s) ← decimals? s
  let (offset, s) ← offset? (Text.trimLeft s)
  if Text.trimLeft s ≠ [] then none
  let seconds := dayNumber year month day * 86400 + hour * 3600 + minute * 60 + second - offset
  return ⟨seconds * nanosecondsPerSecond + fraction⟩

def parse? (s : String) : Option Instant :=
  ofChars? s.toList

end Instant

end SheetPackages
