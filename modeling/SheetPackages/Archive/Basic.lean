import SheetPackages.Archive.Zip
import SheetPackages.Digest.Integrity
import SheetPackages.Function
import SheetPackages.Json.Printer
import SheetPackages.Lockfile.Basic
import SheetPackages.Project
import SheetPackages.World.Basic

/-!
# Package archives

A package is published as a zip container with its manifest, the lockfile of the publishing project
if it has one, and its functions by name. The arguments of a function are written with their
documentation; a mere list of their names is read as well.
-/

namespace SheetPackages

/-- What an archive holds, with the integrity of its bytes. -/
structure Archive where
  project : Project
  /-- Empty when the archive holds none. -/
  lockfile : Lockfile := {}
  functions : FunctionMap
  integrity : String

namespace Archive

def projectEntry : String := "__GSPROJECT__.json"
def lockEntry : String := "__LOCK__.json"
def functionsEntry : String := "functions.json"

/-! ## Functions in an archive -/

/-- The arguments of a function: their names, and the documentation of those that have one. -/
abbrev Arguments := List String × OrderedMap ArgumentInfo

/-- How deep the arguments of a function may nest, two levels below the map of functions. -/
def argumentsDepth : Nat := Json.Document.maxDepth - 2

/-- Arguments are a map from names to documentation, or a list of names. -/
def argumentsOf? (doc : Json.Document) : Option Arguments := do
  let _ ← doc.value? argumentsDepth
  match doc.mapOf? ArgumentInfo.ofDocument? with
  | some info => return (info.keys, info)
  | none => return (← doc.strings?, .empty)

/-- A function without its name. -/
def bodyOf? (doc : Json.Document) : Option Function := do
  let fields ← doc.record? ["definition", "description", "arguments"]
  let definition ← Json.Document.required fields "definition" Json.Document.string?
  let description ← Json.Document.withDefault fields "description" none
    Json.Document.optionalString?
  let (arguments, info) ← Json.Document.withDefault fields "arguments" ([], .empty) argumentsOf?
  return { name := "", definition, description, arguments, info }

def functionsOf? (doc : Json.Document) : Option FunctionMap := do
  return (← doc.mapOf? bodyOf?).map fun name f ↦ f.renamed name

/-- The documentation of every argument, by name. -/
def documented (f : Function) : OrderedMap ArgumentInfo :=
  .ofList (f.arguments.map fun a ↦ (a, f.argumentInfo a))

def functionJson (f : Function) : Json :=
  .object [("definition", .text f.definition), ("description", .ofText? f.description),
    ("arguments", Function.infoJson (documented f))]

def functionsJson (functions : FunctionMap) : Json :=
  .object (functions.entries.map fun (name, f) ↦ (name, functionJson f))

/-! ## Reading -/

def corrupt (label reason : String) : Fault :=
  .corruptArchive label reason

/-- The file of a name in a container, if there is one. -/
def entry (data : ByteArray) (zip : Zip) (label name : String) :
    Except Fault (Option ByteArray) :=
  match zip.find? name with
  | none => pure none
  | some e =>
    match Zip.content? data e with
    | some content => pure (some content)
    | none => throw (corrupt label Fault.unexplained)

def readEntry {α : Type} (read : Json.Document → Option α) (content : ByteArray)
    (label name : String) : Except Fault α :=
  match (Json.Document.ofBytes content).bind read with
  | some a => pure a
  | none => throw (corrupt label s!"{name}: {Fault.unexplained}")

/-- An entry that must be there. -/
def requiredEntry {α : Type} (read : Json.Document → Option α) (data : ByteArray) (zip : Zip)
    (label name : String) : Except Fault α := do
  match ← entry data zip label name with
  | none => throw (corrupt label s!"missing {name}")
  | some content => readEntry read content label name

/-- Reads the bytes of an archive; `label` names it in faults. -/
def ofBytes (data : ByteArray) (label : String) : Except Fault Archive := do
  match Zip.ofBytes? data with
  | none => throw (corrupt label Fault.unexplained)
  | some zip =>
    let project ← requiredEntry Project.ofDocument? data zip label projectEntry
    let functions ← requiredEntry functionsOf? data zip label functionsEntry
    let lockfile ← match ← entry data zip label lockEntry with
      | some content => readEntry Lockfile.ofDocument? content label lockEntry
      | none => pure {}
    return { project, lockfile, functions, integrity := Digest.integrity data }

/-- Reads an archive file. -/
def ofFile (path : String) : Action Archive := do
  let data ← Action.read s!"Failed to read archive {path}" path
  ofBytes data path

/-- The integrity of the bytes of a file. -/
def integrityOfFile (path : String) : Action String := do
  return Digest.integrity (← Action.read s!"Failed to read file: {path}" path)

/-! ## Writing -/

/-- The files of an archive, in order. -/
def files (project : Project) (functions : FunctionMap) (lockfile : Option Lockfile) :
    List (String × Json) :=
  (projectEntry, project.toJson) ::
    (lockfile.map fun l ↦ (lockEntry, l.toJson)).toList ++
    [(functionsEntry, functionsJson functions)]

def bytes (project : Project) (functions : FunctionMap) (lockfile : Option Lockfile) : ByteArray :=
  Zip.write ((files project functions lockfile).map fun (name, json) ↦ (name, json.pretty.toUTF8))

/-- The directory in which a file is. -/
def directoryOf (path : String) : String :=
  match Path.parent? path with
  | some "" | none => "."
  | some directory => directory

/-- Writes an archive file, making its directory if necessary, and gives its size. -/
def create (path : String) (project : Project) (functions : FunctionMap)
    (lockfile : Option Lockfile) : Action Nat := do
  let data := bytes project functions lockfile
  let directory := directoryOf path
  Action.makeDirectories s!"Failed to create {directory}" directory
  Action.write s!"Failed to move archive to {path}" path data
  return data.size

end Archive

end SheetPackages
