import SheetPackages.Archive.Basic
import SheetPackages.Package
import SheetPackages.Workbook.State

/-!
# Authoring a project

A workbook becomes a project by a manifest and an empty lockfile, and is published as an archive of
the functions that are its own.
-/

namespace SheetPackages.Workbook

/-- What a new project is to be. -/
structure Draft where
  name : String
  version : String := "0.1.0"
  description : String := ""
  author : Option String := none
  license : Option String := none
  /-- Whether to replace a project or a lockfile that is there. -/
  force : Bool := false

/-- A project needs a valid name and a version. -/
def checkProject (name version : String) : Except Fault Unit := do
  if Package.isValidName name then
    let _ ← Version.read version
  else
    throw (.invalidSetting "name" s!"'{name}' may only contain letters, digits, '-' and '_'")

namespace Draft

def check (d : Draft) : Except Fault Unit :=
  checkProject d.name d.version

def extra (d : Draft) : List (String × Json) :=
  [("author", d.author), ("license", d.license)].filterMap fun (key, value) ↦
    value.map fun text ↦ (key, .text text)

def project (d : Draft) : Project where
  name := d.name
  version := d.version
  description := d.description
  extra := .ofList d.extra

/-- What makes a workbook the project; nothing where a project or a lockfile is to stay. -/
def changes? (d : Draft) (functions : FunctionMap) : Option (List Change) :=
  if ((project? functions).isSome || (lockfile? functions).isSome) && !d.force then none
  else some [.update (encodeProject d.project), .update (encodeLockfile {})]

end Draft

/-- An archive that was written. -/
structure Packed where
  path : String
  size : Nat
  functions : Nat

/-- Writes the functions of a project to an archive in a directory. -/
def pack (s : State) (directory : String) : Action Packed := do
  let p ← s.needProject
  checkProject p.name p.version
  let functions := s.ownFunctions
  if functions.isEmpty then throw (.nothingToPack p.name)
  let path := Path.join directory s!"{p.name}-{p.version}.gspkg"
  let size ← Archive.create path p functions none
  return ⟨path, size, functions.size⟩

end SheetPackages.Workbook
