import SheetPackages.Plan.Supply
import SheetPackages.Resolution.Search

/-!
# Selected packages

Which packages a project needs, and where each comes from. A requirement on an archive file selects
that file as it is, and brings in what the archive requires. The other requirements are resolved
against the registry; a package that comes from a file is not looked for there.
-/

namespace SheetPackages

inductive Origin where
  | file (path : String) (archive : Archive)
  /-- A version as the index writes it. -/
  | registry (version : String)

/-- A package that is to be installed. -/
structure Selected where
  name : String
  origin : Origin

namespace Selected

variable {m : Type → Type} [Monad m]

/-- The packages that come from files, and all other requirements, those of the files among them at
the place of the file. -/
def gather (s : Supply m) : List Dependency → ExceptT Fault m (List Selected × List Dependency)
  | [] => pure ([], [])
  | d :: rest =>
    match d.localPath? with
    | some path => do
      let archive ← s.file path
      let needs ← archive.project.requirements
      let (files, others) ← gather s rest
      return (⟨d.name, .file path archive⟩ :: files, needs ++ others)
    | none => do
      let (files, others) ← gather s rest
      return (files, d :: others)

/-- The packages that a resolution picks for some requirements. -/
def resolved (i : Index) (limit : Nat) (needs : List Dependency) :
    Except Fault (List Selected) := do
  let outcome ← Resolution.resolve i.provider (some limit) needs
  return outcome.packages.map fun p ↦
    ⟨p.name, .registry ((i.key? p.name p.version).getD p.version.text)⟩

/-- The packages that a project needs, those from files first. `pins` are requirements that are not
the project's own. -/
def ofProject (s : Supply m) (limit : Nat) (p : Project) (pins : List Dependency) :
    ExceptT Fault m (List Selected) := do
  let (files, others) ← gather s (← p.requirements)
  let names := files.map Selected.name
  let needs := (others ++ pins).filter fun d ↦ d.name ∉ names
  if needs.isEmpty then return files
  else
    let found ← resolved (← s.index) limit needs
    return files ++ found.filter fun selected ↦ selected.name ∉ names

end Selected

end SheetPackages
