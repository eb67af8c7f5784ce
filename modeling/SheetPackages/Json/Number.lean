import SheetPackages.Decimal.Shortest
import SheetPackages.Json.Basic

/-!
# Numbers in JSON texts

A numeral is what a JSON text writes for a number. One without fraction and exponent that fits a
64-bit word is a whole number. Any other one is a binary number: a 64-bit significand takes the
digits while they fit, later digits count by their place only, and the significand is then scaled
by a power of ten in one rounding step (two or more outside the range of the powers). A numeral
beyond the range of binary numbers has no value.

A binary number is written with the fewest digits that read back, in positional notation from 1e-5
up to but not including 1e16 and with an exponent otherwise.
-/

namespace SheetPackages.Json

/-- Digits are given as numbers from 0 to 9; the exponent is a sign and its digits. -/
structure Numeral where
  negative : Bool
  whole : List Nat
  fraction : List Nat
  exponent : Option (Bool × List Nat)
deriving Repr

namespace Numeral

def wordLimit : Nat := Decimal.bitLimit 64

/-- The significand with the digits that fit, and the digits left over. -/
def gather (significand : Nat) : List Nat → Nat × List Nat
  | [] => (significand, [])
  | d :: rest =>
    let next := significand * 10 + d
    if next < wordLimit then gather next rest else (significand, d :: rest)

def powerOfTen (n : Nat) : Float :=
  Float.ofScientific 1 false n

/-- The significand scaled by a power of ten; nothing when the result is out of range. -/
def scaled (significand : Float) (exponent : Int) : Option Float :=
  if exponent.natAbs ≤ 308 then
    if exponent ≥ 0 then
      let product := significand * powerOfTen exponent.toNat
      if product.isInf then none else some product
    else some (significand / powerOfTen exponent.natAbs)
  else if significand == 0.0 then some significand
  else if _h : exponent ≥ 0 then none
  else scaled (significand / powerOfTen 308) (exponent + 308)
termination_by exponent.natAbs

def exponentLimit : Nat := Decimal.bitLimit 31

/-- The written exponent, or the sign of one that is too large to count with. -/
def writtenExponent (digits : List Nat) : Option Nat :=
  digits.foldl
    (fun acc d ↦ acc.bind fun n ↦ if n * 10 + d < exponentLimit then some (n * 10 + d) else none)
    (some 0)

/-- A sum of exponents, kept within the range of a signed 32-bit word. -/
def addExponents (a b : Int) : Int :=
  max (-exponentLimit) (min (a + b) (exponentLimit - 1))

/-- The magnitude of a numeral that is not a whole number of 64 bits. -/
def magnitude (n : Numeral) : Option Float :=
  let (high, dropped) := gather 0 n.whole
  let (significand, rest) := gather high n.fraction
  let place : Int := Int.ofNat dropped.length - Int.ofNat (n.fraction.length - rest.length)
  let base := (UInt64.ofNat significand).toFloat
  match n.exponent with
  | none => scaled base place
  | some (negative, digits) =>
    match writtenExponent digits with
    | some e => scaled base (addExponents place (if negative then -Int.ofNat e else Int.ofNat e))
    | none => if significand ≠ 0 ∧ ¬negative then none else some 0.0

/-- Whether the numeral is written without fraction and exponent. -/
def isWhole (n : Numeral) : Bool :=
  n.fraction.isEmpty && n.exponent.isNone

def value? (n : Numeral) : Option Json :=
  let (high, dropped) := gather 0 n.whole
  if n.isWhole ∧ dropped = [] ∧ ¬n.negative then some (.int high)
  else if n.isWhole ∧ dropped = [] ∧ 0 < high ∧ high ≤ Decimal.bitLimit 63 then
    some (.int (-Int.ofNat high))
  else n.magnitude.map fun x ↦ .real (if n.negative then (-x).toBits else x.toBits)

end Numeral

/-- How binary numbers are written: the exponents of ten from `low` to `high` in positional
notation, the others with `e` and a sign. -/
structure RealFormat where
  low : Int
  high : Int

def realFormat : RealFormat := ⟨-5, 15⟩

/-- Positional notation of `0.d₁d₂… * 10 ^ (exponent + 1)`, always with a point. -/
def positional (digits : List Char) (exponent : Int) : List Char :=
  if exponent < 0 then ['0', '.'] ++ List.replicate (exponent.natAbs - 1) '0' ++ digits
  else
    let whole := exponent.toNat + 1
    let padded := digits ++ List.replicate (whole - digits.length) '0'
    let fraction := padded.drop whole
    padded.take whole ++ ['.'] ++ (if fraction = [] then ['0'] else fraction)

def scientific (digits : List Char) (exponent : Int) : List Char :=
  let mantissa := match digits with
    | [] => ['0']
    | [d] => [d]
    | d :: rest => d :: '.' :: rest
  mantissa ++ ['e', if exponent < 0 then '-' else '+'] ++ Decimal.digits exponent.natAbs

/-- The text of the binary number with the given bits. -/
def realText (bits : UInt64) : String :=
  let sign := if bits.toNat ≥ Decimal.bitLimit 63 then ['-'] else []
  let body := match Decimal.Binary.ofBits? bits with
    | none => ['0', '.', '0']
    | some b =>
      let d := b.shortest
      if realFormat.low ≤ d.exponent ∧ d.exponent ≤ realFormat.high then
        positional d.digits d.exponent
      else scientific d.digits d.exponent
  String.ofList (sign ++ body)

def intText (n : Int) : String :=
  if n < 0 then "-" ++ Decimal.text n.natAbs else Decimal.text n.natAbs

end SheetPackages.Json
