import SheetPackages.Decimal.Whole

/-!
# ASCII characters

Letters, digits and letter case, for the texts in which only ASCII characters have these roles.
-/

namespace SheetPackages.Text

def isLetter (c : Char) : Bool :=
  ('a' ≤ c && c ≤ 'z') || ('A' ≤ c && c ≤ 'Z')

def isAlphanumeric (c : Char) : Bool :=
  Decimal.isDigit c || isLetter c

/-- The character with an upper-case letter made lower-case. -/
def lower (c : Char) : Char :=
  if 'A' ≤ c ∧ c ≤ 'Z' then Char.ofNat (c.toNat + 32) else c

/-- The same text in lower case. -/
def lowered (s : String) : String :=
  String.ofList (s.toList.map lower)

/-- Equal but for the case of ASCII letters. -/
def sameIgnoringCase (s t : String) : Bool :=
  s.toList.map lower == t.toList.map lower

end SheetPackages.Text
