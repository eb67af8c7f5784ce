import SheetPackages.Lockfile.Closure
import SheetPackages.Package
import SheetPackages.Plan.Batch

/-!
# Installing and upgrading

Installing adds requirements to the project and installs whatever the project then needs. Upgrading
leaves the project as it is and installs newer versions where the requirements allow them; packages
that are not to be upgraded are pinned to the versions that they have.
-/

namespace SheetPackages

/-- What the user wants to have installed. -/
inductive Target where
  | requirement (text : String)
  /-- An archive file. -/
  | archive (path : String)

namespace Plan

variable {m : Type → Type} [Monad m]

/-! ## Installing -/

/-- The project of a workbook that has none. -/
def initialProject : Project where
  name := "my-project"
  version := "0.1.0"

/-- The requirement that a target adds to the project. -/
def requirementOf (s : Supply m) : Target → ExceptT Fault m Dependency
  | .requirement text => Dependency.read text
  | .archive path => do
    let path ← s.locate path
    let name := (← s.file path).project.name
    if Package.isValidName name then return .onArchive name path
    else throw (.corruptArchive path s!"invalid package name '{name}'")

/-- The project with the requirements of some targets, each in place of one for the same package. -/
def declare (s : Supply m) (p : Project) : List Target → ExceptT Fault m Project
  | [] => pure p
  | target :: rest => do
    let d ← requirementOf s target
    declare s (p.upsert d) rest

/-- Plans to install targets on top of what the project requires. -/
def install (supply : Supply m) (limit : Nat) (s : Workbook.State) (targets : List Target)
    (renames : RenameMaps) : ExceptT Fault m Plan := do
  let p ← declare supply (s.project.getD initialProject) targets
  Batch.planOf supply s p (← Selected.ofProject supply limit p []) renames

/-! ## Upgrading -/

/-- What an upgrade changes. -/
structure Upgrade where
  /-- The old and the new version of each upgraded package. -/
  versions : OrderedMap (String × String)
  /-- Nothing if all packages are up to date. -/
  plan : Option Plan

/-- The packages to upgrade: all that are locked when none are given. -/
def upgraded (l : Lockfile) (targets : List String) : Except Fault (List String) :=
  if targets.isEmpty then pure l.packages.keys
  else
    match targets.find? fun target ↦ !l.contains target with
    | some target => throw (.notInstalled target)
    | none => pure targets

/-- The requirement that keeps a package at its locked version, unless it may move or comes from a
file. -/
def pin? (movable : List String) (name : String) (entry : Locked) : Option Dependency :=
  if name ∈ movable || entry.isLocal then none
  else
    match Version.parse entry.version with
    | .ok version => some ⟨name, "==" ++ version.text⟩
    | .error _ => none

/-- The packages that are locked at another version than the selected one. -/
def newVersions (l : Lockfile) (selection : List Selected) : OrderedMap (String × String) :=
  .ofList (selection.filterMap fun
    | ⟨_, .file _ _⟩ => none
    | ⟨name, .registry version⟩ =>
      match l.get? name with
      | none => none
      | some entry =>
        if entry.isLocal || Batch.isSameVersion entry.version version then none
        else some (name, entry.version, version))

/-- Plans to upgrade targets and what they depend on. -/
def upgrade (supply : Supply m) (limit : Nat) (s : Workbook.State) (targets : List String)
    (renames : RenameMaps) : ExceptT Fault m Upgrade := do
  let p ← s.needProject
  let movable := s.lockfile.closure (← upgraded s.lockfile targets)
  let pins := s.lockfile.packages.entries.filterMap fun (name, entry) ↦ pin? movable name entry
  let selection ← Selected.ofProject supply limit p pins
  let versions := newVersions s.lockfile selection
  if versions.isEmpty then return ⟨versions, none⟩
  else return ⟨versions, some (← Batch.planOf supply s p selection renames)⟩

end Plan

end SheetPackages
