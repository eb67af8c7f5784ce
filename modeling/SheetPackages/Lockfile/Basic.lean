import SheetPackages.Dependency
import SheetPackages.Json.Printer

/-!
# Lockfiles

The installed packages of a workbook in install order. Each entry records the version, where the
archive came from, its integrity, the requirements it declares and the functions that it owns; an
installed function belongs to one entry.
-/

namespace SheetPackages

structure Locked where
  version : String
  /-- `registry:name/version` or `file:path`. -/
  resolved : Option String := none
  integrity : Option String := none
  dependencies : List String := []
  functions : List String := []
deriving DecidableEq

namespace Locked

/-- The version of packages that were installed from an archive file. -/
def localVersion : String := "local"

def registryOrigin (name version : String) : String :=
  "registry:" ++ name ++ "/" ++ version

def fileOrigin (path : String) : String :=
  "file:" ++ path

/-- Whether the entry was installed from an archive file. -/
def isLocal (l : Locked) : Bool :=
  l.resolved.any fun origin ↦ (Text.behind? "file:" origin).isSome

/-- The name at the beginning of a requirement text. -/
def nameOf (requirement : String) : String :=
  String.ofList (requirement.toList.takeWhile Dependency.isNameChar)

def dependencyNames (l : Locked) : List String :=
  l.dependencies.map nameOf

def toJson (l : Locked) : Json :=
  .object [("version", .text l.version), ("resolved", .ofText? l.resolved),
    ("integrity", .ofText? l.integrity), ("dependencies", Json.texts l.dependencies),
    ("functions", Json.texts l.functions)]

def ofDocument? (doc : Json.Document) : Option Locked := do
  let fields ← doc.record? ["version", "resolved", "integrity", "dependencies", "functions"]
  let version ← Json.Document.required fields "version" Json.Document.string?
  let resolved ← Json.Document.withDefault fields "resolved" none Json.Document.optionalString?
  let integrity ← Json.Document.withDefault fields "integrity" none Json.Document.optionalString?
  let dependencies ← Json.Document.withDefault fields "dependencies" [] Json.Document.strings?
  let functions ← Json.Document.withDefault fields "functions" [] Json.Document.strings?
  return { version, resolved, integrity, dependencies, functions }

end Locked

structure Lockfile where
  packages : OrderedMap Locked := .empty
deriving DecidableEq

namespace Lockfile

def get? (l : Lockfile) (name : String) : Option Locked :=
  l.packages.get? name

def contains (l : Lockfile) (name : String) : Bool :=
  l.packages.contains name

def insert (l : Lockfile) (name : String) (entry : Locked) : Lockfile :=
  ⟨l.packages.insert name entry⟩

def remove (l : Lockfile) (name : String) : Lockfile :=
  ⟨l.packages.erase name⟩

def isEmpty (l : Lockfile) : Bool :=
  l.packages.isEmpty

/-- Every owned function with its owner, in order. -/
def claims (l : Lockfile) : List (String × String) :=
  l.packages.entries.flatMap fun (package, entry) ↦ entry.functions.map (·, package)

/-- The functions owned by some entry, in order. -/
def ownedFunctions (l : Lockfile) : List String :=
  l.packages.entries.flatMap fun entry ↦ entry.2.functions

/-- The owner of each owned function; of several owners the last one. -/
def owners (l : Lockfile) : OrderedMap String :=
  .ofList l.claims

def owner? (l : Lockfile) (function : String) : Option String :=
  l.owners.get? function

/-- The functions claimed more than once, in ascending order. -/
def sharedFunctions (l : Lockfile) : List String :=
  let owned := l.ownedFunctions
  let shared := (OrderedMap.ofList (owned.map (·, ()))).keys.filter fun f ↦ owned.count f > 1
  shared.mergeSort (· ≤ ·)

/-- Keeps of every entry the functions that `taken` and the entries before it do not claim. -/
def keepFirst (taken : List String) : List (String × Locked) → List (String × Locked)
  | [] => []
  | (name, entry) :: rest =>
    let kept := entry.functions.foldl
      (fun kept f ↦ if f ∈ taken ∨ f ∈ kept then kept else kept ++ [f]) []
    (name, { entry with functions := kept }) :: keepFirst (taken ++ kept) rest

/-- Each function stays with the first entry that claims it. -/
def exclusive (l : Lockfile) : Lockfile :=
  ⟨.ofList (keepFirst [] l.packages.entries)⟩

def toJson (l : Lockfile) : Json :=
  .object [("packages", .object (l.packages.entries.map fun (name, entry) ↦ (name, entry.toJson)))]

def ofDocument? (doc : Json.Document) : Option Lockfile := do
  let fields ← doc.record? ["packages"]
  let packages ← Json.Document.withDefault fields "packages" .empty
    (Json.Document.mapOf? Locked.ofDocument?)
  return ⟨packages⟩

end Lockfile

end SheetPackages
