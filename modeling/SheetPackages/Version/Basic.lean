import SheetPackages.Text.Blank
import SheetPackages.Version.Identifier

/-!
# Versions

A version has three numbers below 2^64, an optional prerelease label and an optional build label.
It is written `1.2.3-rc.1+build`; when a version is read, missing numbers are zero, one leading
`v` is dropped and blanks around the text are ignored. Precedence ignores the build label.
-/

namespace SheetPackages

structure Version where
  major : UInt64
  minor : UInt64
  patch : UInt64
  prerelease : Option Version.Label := none
  build : Option Version.Label := none
deriving DecidableEq

namespace Version

/-- Why a text is not a version, a comparator or a version requirement. -/
inductive Flaw where
  | format (input : String)
  | number (component : String)
  | prerelease (label : String)
  | build (label : String)
  | specifier (input reason : String)
deriving DecidableEq

def Flaw.message : Flaw → String
  | .format input => s!"Invalid version format: {input}"
  | .number component => s!"Invalid number in version: {component}"
  | .prerelease label => s!"Invalid prerelease identifier: {label}"
  | .build label => s!"Invalid build metadata: {label}"
  | .specifier input reason => s!"Invalid version specifier '{input}': {reason}"

/-- The numbers, the prerelease label and the build label of a version text, not yet read. -/
structure Layout where
  core : List Char
  prerelease : Option Label
  build : Option Label

/-- The build label follows the first `+`, the prerelease label the first `-` before it. -/
def Layout.ofChars (s : List Char) : Except Flaw Layout := do
  let (rest, build) ← match Text.cut? '+' s with
    | none => pure (s, none)
    | some (before, behind) =>
      match Label.ofChars? behind with
      | none => throw (.build (String.ofList behind))
      | some label => pure (before, some label)
  match Text.cut? '-' rest with
  | none => pure ⟨rest, none, build⟩
  | some (before, behind) =>
    match Label.ofChars? behind with
    | none => throw (.prerelease (String.ofList behind))
    | some label => pure ⟨before, some label, build⟩

def readNumber (s : List Char) : Except Flaw UInt64 :=
  match Decimal.readWord? s with
  | some n => pure n
  | none => throw (.number (String.ofList s))

/-- The one to three numbers of a version core; `input` is named when their count is wrong. -/
def readCore (input core : List Char) : Except Flaw (UInt64 × Option UInt64 × Option UInt64) :=
  let format : Flaw := .format (String.ofList input)
  match Text.pieces '.' core with
  | [a] => do
    if a = [] then throw format
    return (← readNumber a, none, none)
  | [a, b] => do
    if a = [] ∨ b = [] then throw format
    return (← readNumber a, some (← readNumber b), none)
  | [a, b, c] => do
    if a = [] ∨ b = [] ∨ c = [] then throw format
    return (← readNumber a, some (← readNumber b), some (← readNumber c))
  | _ => throw format

/-- The text without one leading `v`. -/
def dropMark : List Char → List Char
  | 'v' :: rest => rest
  | s => s

def ofChars (s : List Char) : Except Flaw Version := do
  let input := Text.trim s
  let layout ← Layout.ofChars (dropMark input)
  let (major, minor, patch) ← readCore input layout.core
  return ⟨major, minor.getD 0, patch.getD 0, layout.prerelease, layout.build⟩

def parse (s : String) : Except Flaw Version :=
  ofChars s.toList

def parse? (s : String) : Option Version :=
  (parse s).toOption

/-- A label behind its mark; nothing when there is no label. -/
def labelChars (mark : Char) : Option Label → List Char
  | none => []
  | some label => mark :: label.chars

def chars (v : Version) : List Char :=
  Text.joined '.' [Decimal.digits v.major.toNat, Decimal.digits v.minor.toNat,
    Decimal.digits v.patch.toNat] ++ labelChars '-' v.prerelease ++ labelChars '+' v.build

def text (v : Version) : String :=
  String.ofList v.chars

def isPrerelease (v : Version) : Bool :=
  v.prerelease.isSome

/-- A version without a prerelease label comes after those with one. -/
def comparePrerelease : Option Label → Option Label → Ordering
  | none, none => .eq
  | some _, none => .lt
  | none, some _ => .gt
  | some l, some m => l.compare m

def compareNumbers (v w : Version) : Ordering :=
  ((compare v.major.toNat w.major.toNat).then (compare v.minor.toNat w.minor.toNat)).then
    (compare v.patch.toNat w.patch.toNat)

/-- Precedence: the numbers first, then the prerelease labels. -/
def precedence (v w : Version) : Ordering :=
  (v.compareNumbers w).then (comparePrerelease v.prerelease w.prerelease)

/-- Equal precedence; build labels may differ. -/
def same (v w : Version) : Bool :=
  v.precedence w == .eq

/-- `v` comes before `w` or has the same precedence. -/
def le (v w : Version) : Bool :=
  v.precedence w != .gt

/-- What a table keyed by versions looks at to place one: the numbers and the text of the
prerelease label. -/
def tableKey (v : Version) : UInt64 × UInt64 × UInt64 × Option String :=
  (v.major, v.minor, v.patch, v.prerelease.map Label.text)

end Version

end SheetPackages
