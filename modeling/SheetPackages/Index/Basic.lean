import SheetPackages.Fault
import SheetPackages.Json.Printer

/-!
# Registry indexes

A registry index lists packages with their published versions. A version is found by the key under
which it is listed: by its canonical text first, else by the first key that reads as a version of
the same precedence. Keys that are no versions are never offered.
-/

namespace SheetPackages

/-- What the index says about one published version. -/
structure Release where
  dependencies : List String := []
  /-- The path of the archive, relative to the registry. -/
  path : Option String := none
  description : String := ""
deriving DecidableEq

/-- What the index says about one package. -/
structure Listing where
  description : String := ""
  author : Option String := none
  license : Option String := none
  homepage : Option String := none
  versions : OrderedMap Release := .empty
deriving DecidableEq

structure Index where
  packages : OrderedMap Listing := .empty
deriving DecidableEq

namespace Release

def toJson (r : Release) : Json :=
  .object [("dependencies", Json.texts r.dependencies), ("path", .ofText? r.path),
    ("description", .text r.description)]

def ofDocument? (doc : Json.Document) : Option Release := do
  let fields ← doc.record? ["dependencies", "path", "description"]
  let dependencies ← Json.Document.withDefault fields "dependencies" [] Json.Document.strings?
  let path ← Json.Document.withDefault fields "path" none Json.Document.optionalString?
  let description ← Json.Document.withDefault fields "description" "" Json.Document.string?
  return { dependencies, path, description }

end Release

namespace Listing

/-- The keys that are versions, in listed order, with what they are read as. -/
def readable (l : Listing) : List (String × Version) :=
  l.versions.keys.filterMap fun key ↦ (Version.parse? key).map (key, ·)

def releases (l : Listing) : List Version :=
  l.readable.map Prod.snd

def key? (l : Listing) (version : Version) : Option String :=
  let exact := version.text
  if l.versions.contains exact then some exact
  else (l.readable.find? fun entry ↦ entry.2.same version).map Prod.fst

def toJson (l : Listing) : Json :=
  .object [("description", .text l.description), ("author", .ofText? l.author),
    ("license", .ofText? l.license), ("homepage", .ofText? l.homepage),
    ("versions", .object (l.versions.entries.map fun (key, r) ↦ (key, r.toJson)))]

def ofDocument? (doc : Json.Document) : Option Listing := do
  let fields ← doc.record? ["description", "author", "license", "homepage", "versions"]
  let optional := Json.Document.optionalString?
  let description ← Json.Document.withDefault fields "description" "" Json.Document.string?
  let author ← Json.Document.withDefault fields "author" none optional
  let license ← Json.Document.withDefault fields "license" none optional
  let homepage ← Json.Document.withDefault fields "homepage" none optional
  let versions ← Json.Document.withDefault fields "versions" .empty
    (Json.Document.mapOf? Release.ofDocument?)
  return { description, author, license, homepage, versions }

end Listing

namespace Index

def package? (i : Index) (name : String) : Option Listing :=
  i.packages.get? name

def size (i : Index) : Nat :=
  i.packages.size

def isEmpty (i : Index) : Bool :=
  i.packages.isEmpty

/-- Every published version of a package that can be read, in listed order. -/
def versions (i : Index) (name : String) : List Version :=
  match i.package? name with
  | some listing => listing.releases
  | none => []

/-- The key under which a version of a package is listed. -/
def key? (i : Index) (name : String) (version : Version) : Option String :=
  (i.package? name).bind (·.key? version)

/-- What is listed for a version of a package. -/
def release (i : Index) (name : String) (version : Version) : Except Fault Release :=
  match i.package? name with
  | none => throw (.packageNotFound name)
  | some listing =>
    match (listing.key? version).bind listing.versions.get? with
    | some r => pure r
    | none => throw (.versionNotFound name version.text)

/-- The greatest of some versions; of equal ones the last. -/
def greatest : List Version → Option Version
  | [] => none
  | v :: rest => some (rest.foldl (fun best w ↦ if best.le w then w else best) v)

/-- The greatest stable version, or the greatest one of all when none is stable. -/
def latest? (i : Index) (name : String) : Option Version :=
  let all := i.versions name
  (greatest (all.filter (!·.isPrerelease))).or (greatest all)

def toJson (i : Index) : Json :=
  .object (i.packages.entries.map fun (name, l) ↦ (name, l.toJson))

def ofDocument? (doc : Json.Document) : Option Index := do
  return ⟨← doc.mapOf? Listing.ofDocument?⟩

/-- Reads the bytes of an index file. -/
def ofBytes (data : ByteArray) : Except Fault Index :=
  match (Json.Document.ofBytes data).bind ofDocument? with
  | some index => pure index
  | none => throw (.malformedJson "registry index" Fault.unexplained)

end Index

end SheetPackages
