import SheetPackages.Version.Basic

/-!
# Partial versions

A version of which only the leading numbers may be given, as comparators use it. The build label
is checked and dropped when a partial version is read.
-/

namespace SheetPackages.Version

structure Partial where
  major : UInt64
  minor : Option UInt64 := none
  patch : Option UInt64 := none
  prerelease : Option Label := none
deriving DecidableEq

namespace Partial

/-- The text without one trailing `.*`. -/
def dropWildcard (s : List Char) : List Char :=
  (['.', '*'].isSuffixOf? s).getD s

def endsInWildcard (s : List Char) : Bool :=
  ['.', '*'].isSuffixOf s

/-- Reads `1`, `1.2`, `1.2.3`, `1.2.3-rc.1`; one leading `v` and one trailing `.*` are dropped. -/
def ofChars (s : List Char) : Except Flaw Partial := do
  let input := dropWildcard (dropMark s)
  let layout ← Layout.ofChars input
  let (major, minor, patch) ← readCore input layout.core
  return ⟨major, minor, patch, layout.prerelease⟩

def parse (s : String) : Except Flaw Partial :=
  ofChars s.toList

def isOpen (p : Partial) : Bool :=
  p.minor.isNone || p.patch.isNone

/-- Missing numbers set to zero. -/
def zeroFilled (p : Partial) : Partial :=
  { p with minor := some (p.minor.getD 0), patch := some (p.patch.getD 0) }

/-- The least version that the given numbers and the prerelease label begin. -/
def toVersion (p : Partial) : Version :=
  ⟨p.major, p.minor.getD 0, p.patch.getD 0, p.prerelease, none⟩

def numberChars : Option UInt64 → List Char
  | none => []
  | some n => '.' :: Decimal.digits n.toNat

def chars (p : Partial) : List Char :=
  Decimal.digits p.major.toNat ++ numberChars p.minor ++ numberChars p.patch ++
    labelChars '-' p.prerelease

def text (p : Partial) : String :=
  String.ofList p.chars

/-- The given numbers agree, and with all three given the prerelease labels do as well. -/
def matchesExact (p : Partial) (v : Version) : Bool :=
  v.major == p.major && p.minor.all (v.minor == ·) && p.patch.all (v.patch == ·) &&
    (p.patch.isNone || v.prerelease == p.prerelease)

/-- At least the partial version, within its major and minor number. -/
def matchesTilde (p : Partial) (v : Version) : Bool :=
  v.major == p.major && p.toVersion.le v && p.minor.all (v.minor == ·)

/-- At least the partial version, with the same leading numbers up to the first that is not
zero. -/
def matchesCaret (p : Partial) (v : Version) : Bool :=
  v.major == p.major && p.toVersion.le v &&
    (p.major > 0 ||
      match p.minor, p.patch with
      | none, _ => true
      | some minor, none => v.minor == minor
      | some minor, some patch => v.minor == minor && (minor > 0 || v.patch == patch))

/-- At least the partial version, with the same numbers but the last one given. -/
def matchesCompatible (p : Partial) (v : Version) : Bool :=
  p.toVersion.le v && v.major == p.major &&
    match p.minor, p.patch with
    | some minor, some _ => v.minor == minor
    | _, _ => true

end Partial

end SheetPackages.Version
