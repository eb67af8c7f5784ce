import SheetPackages.World.Basic

/-!
# Kept archives

Archives that were fetched are kept in a directory, as `name/version.gspkg`. What is kept under a
name and a version is never replaced; it goes only when all archives are dropped. Names and versions
must be single plain names of files.
-/

namespace SheetPackages.Archive

/-- The directory in which archives are kept. -/
structure Store where
  root : String

namespace Store

/-- The extension of archive files. -/
def extension : String := "gspkg"

/-- Whether a text is the name of a single file in a directory. -/
def isPlainName (s : String) : Bool :=
  s ≠ "" && s ≠ "." && s ≠ ".." && !s.toList.any fun c ↦ c = '/' || c = '\\' || c = '\x00'

def checkName (s : String) : Except Fault Unit :=
  if isPlainName s then pure () else throw (.unsafePath s)

/-- Where the archive of a version is kept. -/
def pathOf (s : Store) (name version : String) : Except Fault String := do
  checkName name
  checkName version
  return Path.join (Path.join s.root name) (version ++ "." ++ extension)

/-- The store in a directory, which is made if necessary. -/
def openAt (root : String) : Action Store := do
  Action.makeDirectories s!"Failed to create cache directory {root}" root
  return ⟨root⟩

def holds (s : Store) (f : Files) (name version : String) : Bool :=
  match s.pathOf name version with
  | .ok path => f.isFile path
  | .error _ => false

/-- The kept archive of a version, if there is one. -/
def get? (s : Store) (name version : String) : Action (Option ByteArray) := do
  if s.holds (← Action.files) name version then
    let path ← s.pathOf name version
    return some (← Action.read s!"Failed to read {path}" path)
  else return none

/-- Keeps an archive unless one is kept already; gives the path. -/
def put (s : Store) (name version : String) (data : ByteArray) : Action String := do
  let path ← s.pathOf name version
  if !(← Action.files).isFile path then
    let directory := Path.join s.root name
    Action.makeDirectories s!"Failed to create {directory}" directory
    Action.write s!"Failed to move artifact to {path}" path data
  return path

/-- Drops everything. -/
def clear (s : Store) : Action Unit := do
  if (← Action.files).exists? s.root then
    let files := (← Action.files).removeTree s.root
    Action.setFiles (← Action.orFault s!"Failed to remove {s.root}" files)
  Action.makeDirectories s!"Failed to recreate {s.root}" s.root

/-! ## Statistics -/

structure Stats where
  packages : Nat := 0
  archives : Nat := 0
  bytes : Nat := 0
deriving DecidableEq

/-- What a directory itself occupies. -/
def directorySize : Nat := 4096

/-- The size of what is at a path. -/
def sizeAt (f : Files) (path : String) : Nat :=
  match f.find path with
  | .ok (.file data) => data.size
  | _ => directorySize

def isArchiveName (name : String) : Bool :=
  Path.extension? name == some extension

/-- Adds the directory of a package. -/
def countPackage (f : Files) (s : Stats) (directory : String) : Stats :=
  let archives := ((f.list directory).toOption.getD []).filter isArchiveName
  { packages := s.packages + 1
    archives := s.archives + archives.length
    bytes := archives.foldl (fun n name ↦ n + sizeAt f (Path.join directory name)) s.bytes }

def stats (s : Store) : Action Stats := do
  let f ← Action.files
  let names ← Action.orFault s!"Failed to list {s.root}" (f.list s.root)
  let directories := (names.map (Path.join s.root)).filter f.isDirectory
  return directories.foldl (countPackage f) {}

end Store

end SheetPackages.Archive
