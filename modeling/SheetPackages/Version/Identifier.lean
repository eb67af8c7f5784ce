import SheetPackages.Text.Cut
import SheetPackages.Text.Ascii

/-!
# Labels of versions

A prerelease or build label is a nonempty list of identifiers over the ASCII letters, the ASCII
digits and the hyphen, written with dots between them. Identifiers of prerelease labels are
ordered: those that are numbers below 2^64 by value and before all others, the others as text.
-/

namespace SheetPackages.Version

def isIdentifierChar (c : Char) : Bool :=
  Text.isAlphanumeric c || c == '-'

structure Identifier where
  chars : List Char
  nonempty : chars ≠ []
  valid : chars.all isIdentifierChar
deriving DecidableEq

namespace Identifier

def ofChars? (s : List Char) : Option Identifier :=
  if h : s ≠ [] ∧ s.all isIdentifierChar then some ⟨s, h.1, h.2⟩ else none

/-- The value of an identifier that is a decimal number below 2^64. -/
def number? (i : Identifier) : Option UInt64 :=
  Decimal.readWord? i.chars

/-- The order of texts: by the first differing character, a beginning before the whole. -/
def compareChars : List Char → List Char → Ordering
  | [], [] => .eq
  | [], _ :: _ => .lt
  | _ :: _, [] => .gt
  | c :: s, d :: t => (compare c.toNat d.toNat).then (compareChars s t)

/-- Numbers by value and before all other identifiers, the others as text. -/
def compare (i j : Identifier) : Ordering :=
  match i.number?, j.number? with
  | some m, some n => Ord.compare m.toNat n.toNat
  | some _, none => .lt
  | none, some _ => .gt
  | none, none => compareChars i.chars j.chars

end Identifier

structure Label where
  parts : List Identifier
  nonempty : parts ≠ []
deriving DecidableEq

namespace Label

/-- The label written as `s`; every piece between dots has to be an identifier. -/
def ofChars? (s : List Char) : Option Label :=
  match (Text.pieces '.' s).mapM Identifier.ofChars? with
  | none => none
  | some parts => if h : parts ≠ [] then some ⟨parts, h⟩ else none

def chars (l : Label) : List Char :=
  Text.joined '.' (l.parts.map Identifier.chars)

def text (l : Label) : String :=
  String.ofList l.chars

/-- Identifier by identifier; a proper beginning comes first. -/
def compareParts : List Identifier → List Identifier → Ordering
  | [], [] => .eq
  | [], _ :: _ => .lt
  | _ :: _, [] => .gt
  | i :: is, j :: js => (i.compare j).then (compareParts is js)

def compare (l m : Label) : Ordering :=
  compareParts l.parts m.parts

end Label

end SheetPackages.Version
