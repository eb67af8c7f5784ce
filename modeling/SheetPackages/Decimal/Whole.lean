/-!
# Whole numbers in decimal

Reading and writing whole numbers with ASCII digits. Reading accepts leading zeros and nothing but
digits; writing uses the fewest digits.
-/

namespace SheetPackages.Decimal

def isDigit (c : Char) : Bool :=
  '0' ≤ c && c ≤ '9'

def digitValue (c : Char) : Nat :=
  c.toNat - '0'.toNat

/-- The number whose digits, most significant first, follow those of `high`. -/
def valueFrom (high : Nat) (digits : List Char) : Nat :=
  digits.foldl (fun n c ↦ 10 * n + digitValue c) high

def value (digits : List Char) : Nat :=
  valueFrom 0 digits

/-- The number written by a nonempty run of digits. -/
def read? (s : List Char) : Option Nat :=
  if s ≠ [] ∧ s.all isDigit then some (value s) else none

/-- The least number that does not fit in `n` bits. -/
def bitLimit (n : Nat) : Nat :=
  1 <<< n

def powerOfTen (n : Nat) : Nat :=
  Nat.pow 10 n

/-- As `read?`, for numbers that fit in 64 bits. -/
def readWord? (s : List Char) : Option UInt64 :=
  match read? s with
  | some n => if n < bitLimit 64 then some (UInt64.ofNat n) else none
  | none => none

def digitChar (n : Nat) : Char :=
  Char.ofNat ('0'.toNat + n)

/-- The decimal digits of `n`, most significant first. -/
def digits (n : Nat) : List Char :=
  if n < 10 then [digitChar n] else digits (n / 10) ++ [digitChar (n % 10)]

/-- The decimal text of `n`. -/
def text (n : Nat) : String :=
  String.ofList (digits n)

end SheetPackages.Decimal
