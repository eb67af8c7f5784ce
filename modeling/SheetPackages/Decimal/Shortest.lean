import SheetPackages.Decimal.Whole

/-!
# Shortest decimals of binary numbers

The 64-bit binary numbers written with the fewest digits that read back. A number is decoded into
`m * 2 ^ q`; the real numbers that round to it form an interval, whose ends belong to it when `m`
is even. Of the decimal grids, from coarse to fine, the first with a point in the interval gives
the digits, and of two points the nearer one.
-/

namespace SheetPackages.Decimal

/-- A positive finite binary number `significand * 2 ^ exponent`; `narrow` when the gap below it is
half the gap above. -/
structure Binary where
  significand : Nat
  exponent : Int
  narrow : Bool

/-- The number with the given bits, without its sign; nothing for zero. -/
def Binary.ofBits? (bits : UInt64) : Option Binary :=
  let fraction := bits.toNat % bitLimit 52
  let biased := bits.toNat / bitLimit 52 % bitLimit 11
  if biased = 0 then
    if fraction = 0 then none else some ⟨fraction, -1074, false⟩
  else some ⟨fraction + bitLimit 52, Int.ofNat biased - 1075, fraction = 0 ∧ biased > 1⟩

/-- The digits `coefficient` on the grid of the multiples of `10 ^ exponent`. -/
structure Scaled where
  coefficient : Nat
  exponent : Int

/-- The interval around `value / unit`, in units of `1 / unit`. -/
structure Interval where
  value : Nat
  low : Nat
  high : Nat
  unit : Nat
  closed : Bool

def Binary.interval (b : Binary) : Interval :=
  let scale := bitLimit (b.exponent - 2).toNat
  { value := 4 * b.significand * scale
    low := (4 * b.significand - (if b.narrow then 1 else 2)) * scale
    high := (4 * b.significand + 2) * scale
    unit := bitLimit (2 - b.exponent).toNat
    closed := b.significand % 2 = 0 }

/-- The numerators of the interval over the grid of `10 ^ exponent`, which becomes the whole
numbers. -/
def Interval.onGrid (i : Interval) (exponent : Int) : Interval :=
  let up := powerOfTen (-exponent).toNat
  { value := i.value * up, low := i.low * up, high := i.high * up
    unit := i.unit * powerOfTen exponent.toNat, closed := i.closed }

def Interval.contains (i : Interval) (point : Nat) : Bool :=
  if i.closed then i.low ≤ point * i.unit && point * i.unit ≤ i.high
  else i.low < point * i.unit && point * i.unit < i.high

/-- The point of the whole numbers in the interval that is nearest to its value, an even one on a
tie; only the two neighbours of the value are looked at. -/
def Interval.nearest? (i : Interval) : Option Nat :=
  let below := i.value / i.unit
  let above := below + 1
  match i.contains below && below ≠ 0, i.contains above with
  | true, false => some below
  | false, true => some above
  | false, false => none
  | true, true =>
    let left := i.value - below * i.unit
    let right := above * i.unit - i.value
    if left < right then some below
    else if right < left then some above
    else if below % 2 = 0 then some below else some above

/-- The first hit on the grids of `10 ^ exponent`, `10 ^ (exponent - 1)` and so on. -/
def Interval.firstHit (i : Interval) (exponent : Int) : Nat → Option Scaled
  | 0 => none
  | more + 1 =>
    match (i.onGrid exponent).nearest? with
    | some point => some ⟨point, exponent⟩
    | none => i.firstHit (exponent - 1) more

/-- An exponent of ten whose grid has no positive point below the number. -/
def Binary.coarse (b : Binary) : Int :=
  let top := (Nat.log2 b.significand : Int) + b.exponent + 1
  if top ≥ 0 then top * 30103 / 100000 + 1 else top * 30102 / 100000 + 1

/-- The digits without trailing zeros, most significant first, and the exponent of ten of the
first one. -/
structure Digits where
  digits : List Char
  exponent : Int

def dropZeros (s : List Char) : List Char :=
  (s.reverse.dropWhile (· == '0')).reverse

def Binary.shortest (b : Binary) : Digits :=
  match b.interval.firstHit b.coarse 20 with
  | none => ⟨['0'], 0⟩
  | some hit =>
    let all := digits hit.coefficient
    ⟨dropZeros all, hit.exponent + Int.ofNat all.length - 1⟩

end SheetPackages.Decimal
