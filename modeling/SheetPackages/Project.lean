import SheetPackages.Fault

/-!
# Projects

The manifest of a workbook and of every published archive: a name, a version, a description, the
declared requirements as texts, and any other keys with their values.
-/

namespace SheetPackages

structure Project where
  name : String := ""
  version : String := ""
  description : String := ""
  dependencies : List String := []
  extra : OrderedMap Json := .empty

namespace Project

def requirements (p : Project) : Except Fault (List Dependency) :=
  Dependency.readAll p.dependencies

/-- Whether an entry of the requirement list is a requirement on the package `name`. -/
def names (name entry : String) : Bool :=
  match Dependency.parse? entry with
  | some d => d.name == name
  | none => false

/-- The list with the first entry on the package `name` replaced, or with the entry added. -/
def putEntry (name entry : String) : List String → List String
  | [] => [entry]
  | e :: rest => if names name e then entry :: rest else e :: putEntry name entry rest

/-- Replaces the entry for the package of `d`, or appends one. -/
def upsert (p : Project) (d : Dependency) : Project :=
  { p with dependencies := putEntry d.name d.text p.dependencies }

/-- Drops every entry for the package `name`. -/
def remove (p : Project) (name : String) : Project :=
  { p with dependencies := p.dependencies.filter (!names name ·) }

/-- Whether an entry for the package `name` is present. -/
def declares (p : Project) (name : String) : Bool :=
  p.dependencies.any (names name)

def extraText? (p : Project) (key : String) : Option String :=
  (p.extra.get? key).bind Json.text?

/-- Equal manifests, values compared as JSON. -/
def same (p q : Project) : Bool :=
  p.name == q.name && p.version == q.version && p.description == q.description &&
    p.dependencies == q.dependencies && p.extra.entries == q.extra.entries

def toJson (p : Project) : Json :=
  .object ([("name", .text p.name), ("version", .text p.version),
    ("description", .text p.description), ("dependencies", Json.texts p.dependencies)] ++
    p.extra.entries)

/-- The keys with a place of their own. -/
def fieldNames : List String := ["name", "version", "description", "dependencies"]

/-- The values of the keys that have no place of their own, one level below the manifest. -/
def extraOf? (members : List (Option String × Json.Document)) : Option (List (String × Json)) := do
  let entries ← members.mapM fun (key, value) ↦ do return (← key, value)
  (entries.filter fun entry ↦ entry.1 ∉ fieldNames).mapM fun (key, value) ↦ do
    return (key, ← value.value? (Json.Document.maxDepth - 1))

def ofDocument? : Json.Document → Option Project
  | .object members => do
    let fields ← Json.Document.knownMembers fieldNames members
    let text := Json.Document.string?
    let name ← Json.Document.withDefault fields "name" "" text
    let version ← Json.Document.withDefault fields "version" "" text
    let description ← Json.Document.withDefault fields "description" "" text
    let dependencies ← Json.Document.withDefault fields "dependencies" [] Json.Document.strings?
    let extra ← extraOf? members
    return { name, version, description, dependencies, extra := .ofList extra }
  | _ => none

end Project

end SheetPackages
