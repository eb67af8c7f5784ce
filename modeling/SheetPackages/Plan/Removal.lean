import SheetPackages.Lockfile.Closure
import SheetPackages.Path
import SheetPackages.Plan.Basic

/-!
# Removing

Removing drops requirements of the project, and every locked package that the remaining ones do not
reach. A target is the name of a required package, or a path of a required archive file: one that
leads to the same file, or one that the recorded path ends with.
-/

namespace SheetPackages.Plan

/-- Whether a path leads to the archive file of a requirement; `canonical` follows a path to the
file that is there. -/
def isOnArchive (canonical : String → Option String) (target : String) (d : Dependency) : Bool :=
  match d.localPath? with
  | none => false
  | some path =>
    ((canonical target).any fun file ↦ canonical path == some file) || Path.endsWith path target

/-- The name of the required package that a target means. -/
def match? (canonical : String → Option String) (declared : List Dependency) (target : String) :
    Option String :=
  if declared.any (·.name == target) then some target
  else (declared.find? (isOnArchive canonical target)).map Dependency.name

/-- The names that targets mean; all of them must mean one. -/
def matched (canonical : String → Option String) (declared : List Dependency)
    (targets : List String) : Except Fault (List String) :=
  targets.mapM fun target ↦
    match match? canonical declared target with
    | some name => pure name
    | none => throw (.notInstalled target)

/-- The project without the requirements on some packages. -/
def withoutAll (p : Project) (names : List String) : Project :=
  names.foldl Project.remove p

/-- Plans to remove targets. -/
def removal (canonical : String → Option String) (s : Workbook.State) (targets : List String) :
    Except Fault Plan := do
  let p ← s.needProject
  let names ← matched canonical (← p.requirements) targets
  let p := withoutAll p names
  let kept := s.lockfile.closure ((← p.requirements).map Dependency.name)
  let pruned := s.lockfile.packages.entries.filter fun entry ↦ entry.1 ∉ kept
  return {
    project := p
    lockfile := ⟨s.lockfile.packages.filter fun name _ ↦ name ∈ kept⟩
    obsolete := pruned.flatMap fun entry ↦ entry.2.functions
    removed := pruned.map Prod.fst }

end SheetPackages.Plan
