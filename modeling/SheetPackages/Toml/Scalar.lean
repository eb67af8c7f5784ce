import SheetPackages.Decimal.Whole
import SheetPackages.Toml.Basic
import SheetPackages.Toml.Quoted

/-!
# Numbers, dates and words in TOML

Single `_` may separate the digits of a number. A decimal number has no leading zero; hexadecimal,
octal and binary ones have no sign. Whole numbers fit a signed 64-bit word. Binary numbers and dates
are recognized but not kept.
-/

namespace SheetPackages.Toml

/-- A digit of some base. -/
def baseDigit? (base : Nat) (c : Char) : Option Nat :=
  (Text.hexValue? c).filter (· < base)

/-- The digits at the beginning of a text, most significant first, in any number. -/
def digitRun (base : Nat) : List Char → Option (List Nat × List Char)
  | '_' :: c :: rest => do
    let d ← baseDigit? base c
    let (more, rest) ← digitRun base rest
    return (d :: more, rest)
  | '_' :: [] => none
  | c :: rest =>
    match baseDigit? base c with
    | some d => (digitRun base rest).map fun (more, rest) ↦ (d :: more, rest)
    | none => some ([], c :: rest)
  | [] => some ([], [])

/-- Digits of which the first one is no separator. -/
def digits? (base : Nat) : List Char → Option (List Nat × List Char)
  | [] => none
  | c :: rest => do
    let d ← baseDigit? base c
    let (more, rest) ← digitRun base rest
    return (d :: more, rest)

def digitsValue (base : Nat) (digits : List Nat) : Nat :=
  digits.foldl (fun n d ↦ base * n + d) 0

/-- A sign, if there is one: whether it is a minus. -/
def sign : List Char → Bool × List Char
  | '+' :: rest => (false, rest)
  | '-' :: rest => (true, rest)
  | s => (false, s)

/-- The digits of a decimal number; a leading zero stands alone. -/
def decimalDigits? : List Char → Option (List Nat × List Char)
  | '0' :: rest => some ([0], rest)
  | s => digits? 10 s

def wordInteger (negative : Bool) (magnitude : Nat) : Option Value :=
  let n : Int := if negative then -(magnitude : Int) else magnitude
  if -(Decimal.bitLimit 63 : Int) ≤ n ∧ n < Decimal.bitLimit 63 then some (.integer n) else none

def basedInteger (base : Nat) (s : List Char) : Option (Value × List Char) := do
  let (digits, rest) ← digits? base s
  return (← wordInteger false (digitsValue base digits), rest)

def integer : List Char → Option (Value × List Char)
  | '0' :: 'x' :: rest => basedInteger 16 rest
  | '0' :: 'o' :: rest => basedInteger 8 rest
  | '0' :: 'b' :: rest => basedInteger 2 rest
  | s => do
    let (negative, s) := sign s
    let (digits, rest) ← decimalDigits? s
    return (← wordInteger negative (digitsValue 10 digits), rest)

/-! ## Binary numbers -/

/-- The fraction of a number; nothing is read where none begins. -/
def fraction : List Char → Option (List Nat × List Char)
  | '.' :: rest => digits? 10 rest
  | s => some ([], s)

/-- The exponent of a number; nothing is read where none begins. -/
def exponent : List Char → Option (Int × List Char)
  | c :: rest =>
    if c = 'e' ∨ c = 'E' then do
      let (negative, rest) := sign rest
      let (digits, rest) ← digits? 10 rest
      let n : Int := digitsValue 10 digits
      return (if negative then -n else n, rest)
    else some (0, c :: rest)
  | [] => some (0, [])

/-- One more than the place of the leading digit of a number that is not zero. -/
def magnitudeBound (digits : List Nat) (exponent : Int) : Int :=
  Int.ofNat (digits.dropWhile (· = 0)).length + exponent

/-- Whether `digits * 10 ^ exponent` is out of the range of binary numbers, rounding considered. -/
def isOutOfRange (digits : List Nat) (exponent : Int) : Bool :=
  let n := digitsValue 10 digits
  if n = 0 ∨ magnitudeBound digits exponent < 309 then false
  else if 310 ≤ magnitudeBound digits exponent then true
  else
    let limit := Decimal.bitLimit 1024 - Decimal.bitLimit 970
    if 0 ≤ exponent then limit ≤ n * Decimal.powerOfTen exponent.toNat
    else limit * Decimal.powerOfTen exponent.natAbs ≤ n

/-- A number with a fraction, an exponent or both; a positive one must be in range. -/
def binaryNumber (s : List Char) : Option (Value × List Char) := do
  let (negative, s) := sign s
  match s with
  | 'i' :: 'n' :: 'f' :: rest | 'n' :: 'a' :: 'n' :: rest => return (.other, rest)
  | _ =>
    let (whole, behind) ← decimalDigits? s
    let (fraction, behind') ← fraction behind
    let (exponent, rest) ← exponent behind'
    if rest.length = behind.length then none
    let out := isOutOfRange (whole ++ fraction) (exponent - fraction.length)
    if out ∧ !negative then none
    return (.other, rest)

/-! ## Dates and times -/

/-- A number of exactly `count` digits within two bounds. -/
def fixedNumber (count low high : Nat) (s : List Char) : Option (Nat × List Char) :=
  let digits := s.take count
  if digits.length = count ∧ digits.all Decimal.isDigit then
    let n := Decimal.value digits
    if low ≤ n ∧ n ≤ high then some (n, s.drop count) else none
  else none

/-- The rest behind an expected character. -/
def behind? (c : Char) : List Char → Option (List Char)
  | d :: rest => if d = c then some rest else none
  | [] => none

def daysIn (year month : Nat) : Nat :=
  if month = 2 then
    if year % 4 = 0 ∧ (year % 100 ≠ 0 ∨ year % 400 = 0) then 29 else 28
  else if month = 4 ∨ month = 6 ∨ month = 9 ∨ month = 11 then 30
  else 31

/-- The rest behind a date. -/
def date (s : List Char) : Option (List Char) := do
  let (year, s) ← fixedNumber 4 0 9999 s
  let (month, s) ← fixedNumber 2 1 12 (← behind? '-' s)
  let (_, s) ← fixedNumber 2 1 (daysIn year month) (← behind? '-' s)
  return s

/-- The rest behind the decimals of a second, of which there is at least one behind a point. -/
def decimals : List Char → Option (List Char)
  | '.' :: c :: rest => if Decimal.isDigit c then some (rest.dropWhile Decimal.isDigit) else none
  | '.' :: [] => none
  | s => some s

/-- The rest behind a time of day. -/
def time (s : List Char) : Option (List Char) := do
  let (_, s) ← fixedNumber 2 0 23 s
  let (_, s) ← fixedNumber 2 0 59 (← behind? ':' s)
  let (_, s) ← fixedNumber 2 0 60 (← behind? ':' s)
  decimals s

/-- The rest behind the offset of a time, if there is one. -/
def offset : List Char → Option (List Char)
  | c :: rest =>
    if c = 'Z' ∨ c = 'z' then some rest
    else if c = '+' ∨ c = '-' then do
      let (_, s) ← fixedNumber 2 0 23 rest
      let (_, s) ← fixedNumber 2 0 59 (← behind? ':' s)
      return s
    else some (c :: rest)
  | [] => some []

/-- Whether a time of day begins: two digits and a colon. -/
def beginsTime (s : List Char) : Bool :=
  (fixedNumber 2 0 23 s).any fun found ↦ found.2.head? = some ':'

/-- A date, a time, or both. -/
def moment (s : List Char) : Option (Value × List Char) :=
  if beginsTime s then (time s).map (.other, ·)
  else do
    let rest ← date s
    match rest with
    | c :: behind =>
      if (c = 'T' ∨ c = 't' ∨ c = ' ') ∧ beginsTime behind then
        return (.other, ← offset (← time behind))
      else return (.other, rest)
    | [] => return (.other, [])

/-- Whether a year and a hyphen begin here. -/
def beginsDate (s : List Char) : Bool :=
  (fixedNumber 4 0 9999 s).any fun found ↦ found.2.head? = some '-'

/-- A value that is neither a text nor made of other values. -/
def scalar (s : List Char) : Option (Value × List Char) :=
  if beginsDate s ∨ beginsTime s then moment s
  else
    match s with
    | 't' :: 'r' :: 'u' :: 'e' :: rest | 'f' :: 'a' :: 'l' :: 's' :: 'e' :: rest =>
      some (.other, rest)
    | _ => (binaryNumber s).or (integer s)

end SheetPackages.Toml
