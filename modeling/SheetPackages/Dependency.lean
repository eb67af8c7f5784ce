import SheetPackages.Version.Range
import SheetPackages.Json.Document

/-!
# Requirements on packages

A requirement is a package name, made of ASCII letters, digits, `_` and `-`, followed by a
specifier that is kept as written: a version range such as `>=1.0,<2.0`, nothing at all, or
`@file:` with the path of an archive. A requirement on an archive never reaches the registry.
-/

namespace SheetPackages

structure Dependency where
  name : String
  /-- An empty specifier accepts every version. -/
  specifier : String := ""
deriving DecidableEq

namespace Dependency

def isNameChar (c : Char) : Bool :=
  Text.isAlphanumeric c || c == '_' || c == '-'

/-- What stands between the name and the path of a requirement on an archive. -/
def localMark : String := "@file:"

/-- A requirement on the archive at `path`. -/
def onArchive (name path : String) : Dependency :=
  ⟨name, localMark ++ path⟩

/-- The text of a requirement without a package name at its beginning, trimmed. -/
structure Nameless where
  input : String
deriving DecidableEq

/-- The longest beginning that is a name, and what follows it without blanks at either end. -/
def ofChars (s : List Char) : Except Nameless Dependency :=
  let s := Text.trim s
  match s.takeWhile isNameChar with
  | [] => throw ⟨String.ofList s⟩
  | name =>
    return ⟨String.ofList name, String.ofList (Text.trim (s.dropWhile isNameChar))⟩

def parse (s : String) : Except Nameless Dependency :=
  ofChars s.toList

def parse? (s : String) : Option Dependency :=
  (parse s).toOption

def text (d : Dependency) : String :=
  d.name ++ d.specifier

def localPath? (d : Dependency) : Option String :=
  Text.behind? localMark d.specifier

def isLocal (d : Dependency) : Bool :=
  d.localPath?.isSome

def range (d : Dependency) : Except Version.Flaw Version.Range :=
  Version.Range.parse d.specifier

def toJson (d : Dependency) : Json :=
  .object [("name", .text d.name), ("specifier", .text d.specifier)]

def ofDocument? (doc : Json.Document) : Option Dependency := do
  let fields ← doc.record? ["name", "specifier"]
  let name ← Json.Document.required fields "name" Json.Document.string?
  let specifier ← Json.Document.withDefault fields "specifier" "" Json.Document.string?
  return { name, specifier }

end Dependency

end SheetPackages
