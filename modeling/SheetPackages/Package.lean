import SheetPackages.Fault

/-!
# Packages

A package as the resolver sees it: a name with one version and the requirements that this version
declares. Packages are compared by name and version precedence.
-/

namespace SheetPackages

structure Package where
  name : String
  version : Version
  dependencies : List String := []
deriving DecidableEq

namespace Package

/-- A nonempty text of name characters without a hyphen at either end. -/
def isValidName (name : String) : Bool :=
  let s := name.toList
  s ≠ [] && s.all Dependency.isNameChar && s.head? ≠ some '-' && s.getLast? ≠ some '-'

def requirements (p : Package) : Except Fault (List Dependency) :=
  Dependency.readAll p.dependencies

/-- The same name and versions of the same precedence. -/
def same (p q : Package) : Bool :=
  p.name == q.name && p.version.same q.version

def order (p q : Package) : Ordering :=
  (compare p.name q.name).then (p.version.precedence q.version)

def toJson (p : Package) : Json :=
  .object [("name", .text p.name), ("version", .text p.version.text),
    ("dependencies", Json.texts p.dependencies)]

/-- Reads a text as a version. -/
def versionOf? (doc : Json.Document) : Option Version :=
  doc.string?.bind Version.parse?

def ofDocument? (doc : Json.Document) : Option Package := do
  let fields ← doc.record? ["name", "version", "dependencies"]
  let name ← Json.Document.required fields "name" Json.Document.string?
  let version ← Json.Document.required fields "version" versionOf?
  let dependencies ← Json.Document.withDefault fields "dependencies" [] Json.Document.strings?
  return { name, version, dependencies }

end Package

end SheetPackages
