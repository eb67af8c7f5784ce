import SheetPackages.Path

/-!
# Files

The files and directories that a program sees, with the directory that relative paths start from. A
path is followed piece by piece: each piece but the first needs an existing directory before it, `.`
and nothing stay there, and `..` goes to the directory above. The root is always a directory.
-/

namespace SheetPackages

/-- The names from the root to a file or a directory. -/
abbrev Place := List String

inductive Files.Entry where
  | directory
  | file (data : ByteArray)

structure Files where
  entries : List (Place × Files.Entry) := []
  /-- Where relative paths start. -/
  here : Place := []

namespace Files

/-- Why something cannot be done with a path. -/
inductive Refusal where
  | notFound
  | notDirectory
  | isDirectory
  | alreadyThere
  | invalidPath
deriving DecidableEq

def entry? (f : Files) (place : Place) : Option Entry :=
  if place = [] then some .directory else f.entries.lookup place

/-- The longest name of a file, in bytes. -/
def maxName : Nat := 255

/-- The place that a piece of a path leads to from a directory. -/
def step (f : Files) (place : Place) (piece : List Char) : Except Refusal Place :=
  match f.entry? place with
  | none => throw .notFound
  | some (.file _) => throw .notDirectory
  | some .directory =>
    if Path.isTrivial piece then pure place
    else if piece = ['.', '.'] then pure place.dropLast
    else
      let name := String.ofList piece
      if maxName < name.utf8ByteSize ∨ '\x00' ∈ piece then throw .invalidPath
      else pure (place ++ [name])

/-- The place that a path names; nothing need be there, but a directory above it. -/
def locate (f : Files) (path : String) : Except Refusal Place :=
  if path.isEmpty then throw .notFound
  else
    (Text.pieces '/' path.toList).foldlM f.step (if Path.isAbsolute path then [] else f.here)

/-- What is at a path. -/
def find (f : Files) (path : String) : Except Refusal Entry := do
  match f.entry? (← f.locate path) with
  | some e => pure e
  | none => throw .notFound

def read (f : Files) (path : String) : Except Refusal ByteArray := do
  match ← f.find path with
  | .file data => pure data
  | .directory => throw .isDirectory

def isFile (f : Files) (path : String) : Bool :=
  match f.find path with
  | .ok (.file _) => true
  | _ => false

def isDirectory (f : Files) (path : String) : Bool :=
  match f.find path with
  | .ok .directory => true
  | _ => false

/-- Whether anything is at a path. -/
def exists? (f : Files) (path : String) : Bool :=
  (f.find path).toBool

/-- The absolute path of a place. -/
def pathOf (place : Place) : String :=
  "/" ++ "/".intercalate place

/-- The absolute path of what is at a path, without `.` and `..`. -/
def canonical (f : Files) (path : String) : Except Refusal String := do
  let place ← f.locate path
  match f.entry? place with
  | some _ => pure (pathOf place)
  | none => throw .notFound

/-- The names in a directory. -/
def list (f : Files) (path : String) : Except Refusal (List String) := do
  let place ← f.locate path
  match f.entry? place with
  | none => throw .notFound
  | some (.file _) => throw .notDirectory
  | some .directory =>
    pure (f.entries.filterMap fun e ↦
      if e.1 ≠ [] ∧ e.1.dropLast = place then e.1.getLast? else none)

/-! ## Changes -/

/-- The entries with one put at a place. -/
def putAt (place : Place) (e : Entry) : List (Place × Entry) → List (Place × Entry)
  | [] => [(place, e)]
  | (p, old) :: rest => if p = place then (p, e) :: rest else (p, old) :: putAt place e rest

def put (f : Files) (place : Place) (e : Entry) : Files :=
  { f with entries := putAt place e f.entries }

/-- Puts a file at a path, in place of a file that is there. -/
def write (f : Files) (path : String) (data : ByteArray) : Except Refusal Files := do
  let place ← f.locate path
  match f.entry? place with
  | some .directory => throw .isDirectory
  | _ => pure (f.put place (.file data))

/-- Makes sure that a piece of a path leads to a directory. -/
def enter (place : Place) (f : Files) (piece : List Char) :
    Except (Refusal × Files) (Place × Files) :=
  match f.step place piece with
  | .error r => throw (r, f)
  | .ok next =>
    match f.entry? next with
    | some .directory => pure (next, f)
    | some (.file _) => throw (.alreadyThere, f)
    | none => pure (next, f.put next .directory)

/-- Enters the pieces one after the other. -/
def enterAll (place : Place) (f : Files) : List (List Char) → Except Refusal Unit × Files
  | [] => (pure (), f)
  | piece :: rest =>
    match enter place f piece with
    | .error (r, f) => (throw r, f)
    | .ok (place, f) => enterAll place f rest

/-- Makes a directory and all directories above it that are not there. Those made before an obstacle
stay. -/
def makeDirectories (f : Files) (path : String) : Except Refusal Unit × Files :=
  if path.isEmpty then (pure (), f)
  else
    enterAll (if Path.isAbsolute path then [] else f.here) f (Text.pieces '/' path.toList)

/-- Takes away what is at a place, with everything below. -/
def erase (f : Files) (place : Place) : Files :=
  { f with entries := f.entries.filter fun e ↦ !place.isPrefixOf e.1 }

/-- Moves a file, in place of a file that is there. -/
def move (f : Files) (source target : String) : Except Refusal Files := do
  let data ← f.read source
  let place ← f.locate source
  (f.erase place).write target data

/-- Takes away a directory with everything in it. -/
def removeTree (f : Files) (path : String) : Except Refusal Files := do
  let place ← f.locate path
  match f.entry? place with
  | none => throw .notFound
  | some (.file _) => throw .notDirectory
  | some .directory => pure (f.erase place)

def text? (data : ByteArray) : Option String :=
  String.fromUTF8? data

end Files

end SheetPackages
