import SheetPackages.Command.Alias
import SheetPackages.Plan.Basic
import SheetPackages.Plan.Selection

/-!
# Batches of packages

The packages of one operation with their archives read. Archives are fetched independently of each
other, so the result does not depend on which comes first; one that was locked before must still
have the locked integrity. A function is installed under its alias or under its own name, which no
other function of the batch and no function of another owner in the workbook may have.
-/

namespace SheetPackages

/-- A package whose archive has been read. -/
structure Unpacked where
  name : String
  version : String
  resolved : String
  integrity : String
  dependencies : List String
  functions : FunctionMap

namespace Unpacked

/-- Reserved functions of an archive are left out. -/
def ofArchive (name version resolved : String) (a : Archive) : Unpacked where
  name
  version
  resolved
  integrity := a.integrity
  dependencies := a.project.dependencies
  functions := a.functions.filter fun function _ ↦ !Function.isReserved function

def locked (u : Unpacked) : Locked where
  version := u.version
  resolved := some u.resolved
  integrity := some u.integrity
  dependencies := u.dependencies
  functions := u.functions.keys

end Unpacked

namespace Batch

/-! ## Fetching -/

/-- Whether two texts stand for the same version. -/
def isSameVersion (a b : String) : Bool :=
  match Version.parse a, Version.parse b with
  | .ok v, .ok w => v.same w
  | _, _ => a == b

/-- The integrity that the archive of a version must have: the one recorded for a package that is
locked at this version from the registry. -/
def lockedIntegrity? (l : Lockfile) (name version : String) : Option String := do
  let entry ← l.get? name
  if entry.isLocal || !isSameVersion entry.version version then none
  else entry.integrity.filter (!·.isEmpty)

variable {m : Type → Type} [Monad m]

/-- Fetches an archive and reads it, after a check of its integrity if one is expected. -/
def fetch (s : Supply m) (name version : String) (expected : Option String) :
    ExceptT Fault m Archive := do
  let data ← s.archive name version
  match expected with
  | some integrity => Digest.verify name data integrity
  | none => pure ()
  Archive.ofBytes data s!"{name}-{version}.gspkg"

/-- What is known of a package before archives are fetched. -/
def atHand? (selected : Selected) : Option Unpacked :=
  match selected.origin with
  | .file path archive =>
    some (.ofArchive selected.name Locked.localVersion (Locked.fileOrigin path) archive)
  | .registry _ => none

/-- The end of a fetch: the position of the package in the selection, and how it went. -/
abbrev Completion := Nat × Except Fault Unpacked

/-- Fetches every archive of a selection from the registry; positions count from `position`. -/
def fetchAll (s : Supply m) (l : Lockfile) (position : Nat) :
    List Selected → ExceptT Fault m (List Completion)
  | [] => pure []
  | ⟨_, .file _ _⟩ :: rest => fetchAll s l (position + 1) rest
  | ⟨name, .registry version⟩ :: rest => do
    let result ← ExceptT.lift (fetch s name version (lockedIntegrity? l name version)).run
    let origin := Locked.registryOrigin name version
    let unpacked := result.map (Unpacked.ofArchive name version origin)
    return (position, unpacked) :: (← fetchAll s l (position + 1) rest)

/-- The packages in the order of the selection, from completions in any order; the first failed
completion fails all. -/
def collect : List (Option Unpacked) → List Completion → Except Fault (List Unpacked)
  | slots, [] => pure (slots.filterMap id)
  | slots, (position, .ok u) :: rest => collect (slots.set position (some u)) rest
  | _, (_, .error fault) :: _ => throw fault

def ofSelection (s : Supply m) (l : Lockfile) (selection : List Selected) :
    ExceptT Fault m (List Unpacked) := do
  collect (selection.map atHand?) (← fetchAll s l 0 selection)

/-! ## Names -/

/-- Puts a function under its alias, and reports the alias when it was taken. -/
def place (map : Formula.RenameMap) (placed : FunctionMap × List String) (name : String)
    (f : Function) : FunctionMap × List String :=
  let newName := (map.get? name).getD name
  (placed.1.insert newName f,
    if placed.1.contains newName then placed.2 ++ [newName] else placed.2)

/-- The functions of a package under their aliases, and the aliases that more than one got. -/
def aliased (map : Formula.RenameMap) (functions : FunctionMap) : FunctionMap × List String :=
  functions.entries.foldl (fun placed entry ↦ place map placed entry.1 entry.2) (.empty, [])

/-- The packages that brought functions in, by function. -/
abbrev Introduced := OrderedMap String

/-- Whether a name belongs to somebody else: to another owner in the workbook, or to nobody there,
or to another package of the batch. -/
def isTaken (s : Workbook.State) (owners introduced : OrderedMap String) (package name : String) :
    Bool :=
  (s.functions.contains name && owners.get? name != some package) ||
    (introduced.get? name).any (· != package)

/-- The names that a package cannot use, without repetition of those in `conflicts`. -/
def conflicts (s : Workbook.State) (owners introduced : OrderedMap String) (package : String)
    (conflicts names : List String) : List String :=
  names.foldl (fun conflicts name ↦
    if isTaken s owners introduced package name ∧ name ∉ conflicts then conflicts ++ [name]
    else conflicts) conflicts

/-- Gives every function its final name; the first package with conflicts fails all. -/
def checked (s : Workbook.State) (owners : OrderedMap String) (renames : RenameMaps) :
    Introduced → List Unpacked → Except Fault (List Unpacked)
  | _, [] => pure []
  | introduced, u :: rest => do
    let (functions, twice) := aliased (Alias.mapOf renames u.name) u.functions
    let found := conflicts s owners introduced u.name twice functions.keys
    if found ≠ [] then throw (.functionCollision u.name found)
    let introduced := introduced.insertAll (functions.keys.map (·, u.name))
    return { u with functions } :: (← checked s owners renames introduced rest)

/-- The batch with final names, unless functions collide. -/
def check (s : Workbook.State) (renames : RenameMaps) (batch : List Unpacked) :
    Except Fault (List Unpacked) :=
  checked s s.lockfile.owners renames .empty batch

/-- Writes the aliases of a package into the bodies of its functions. -/
def withAliases (renames : RenameMaps) (u : Unpacked) : Unpacked :=
  let map := Alias.mapOf renames u.name
  if map.isEmpty then u
  else
    { u with functions := u.functions.map fun name f ↦
      { f with name, definition := Formula.rename map f.definition } }

/-! ## The planned state -/

def lockfile (batch : List Unpacked) : Lockfile :=
  batch.foldl (fun l u ↦ l.insert u.name u.locked) {}

def functions (batch : List Unpacked) : FunctionMap :=
  batch.foldl (fun all u ↦ all.insertAll u.functions.entries) .empty

/-- The texts without those that occurred before. -/
def distinct (texts : List String) : List String :=
  texts.foldl (fun seen t ↦ if t ∈ seen then seen else seen ++ [t]) []

/-- The plan that installs exactly a batch. -/
def plan (s : Workbook.State) (p : Project) (batch : List Unpacked) : Plan :=
  let l := lockfile batch
  let all := functions batch
  { project := p
    functions := all
    lockfile := l
    obsolete := distinct (s.lockfile.ownedFunctions.filter fun name ↦ !all.contains name)
    removed := s.lockfile.packages.keys.filter fun name ↦ !l.contains name }

/-- The plan that installs a selection for a project. -/
def planOf (supply : Supply m) (s : Workbook.State) (p : Project) (selection : List Selected)
    (renames : RenameMaps) : ExceptT Fault m Plan := do
  let batch ← ofSelection supply s.lockfile selection
  return plan s p ((← check s renames batch).map (withAliases renames))

end Batch

end SheetPackages
