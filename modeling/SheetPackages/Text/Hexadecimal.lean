/-!
# Hexadecimal digits

Digits are written in lower case and read in either case.
-/

namespace SheetPackages.Text

def hexDigit (n : Nat) : Char :=
  if n < 10 then Char.ofNat (0x30 + n) else Char.ofNat (0x57 + n)

def hexValue? (c : Char) : Option Nat :=
  if '0' ≤ c ∧ c ≤ '9' then some (c.toNat - 0x30)
  else if 'a' ≤ c ∧ c ≤ 'f' then some (c.toNat - 0x57)
  else if 'A' ≤ c ∧ c ≤ 'F' then some (c.toNat - 0x37)
  else none

theorem hexValue?_hexDigit : ∀ n < 16, hexValue? (hexDigit n) = some n := by
  decide

/-- The number that hexadecimal digits spell, the first one counting most. -/
def hexNumber? (digits : List Char) : Option Nat := do
  return (← digits.mapM hexValue?).foldl (fun n d ↦ 16 * n + d) 0

end SheetPackages.Text
