import SheetPackages.World.Files
import SheetPackages.World.Instant
import SheetPackages.World.Web

/-!
# The world of a program

Everything outside that an operation can look at or change: files, the web and the time. An action
is an operation in such a world; one that ends with a fault leaves the changes that it made before.
-/

namespace SheetPackages

structure World where
  files : Files := {}
  web : Web := {}
  now : Instant

abbrev Action (α : Type) := ExceptT Fault (StateM World) α

namespace Action

def files : Action Files :=
  return (← get).files

def setFiles (f : Files) : Action Unit :=
  modify fun w ↦ { w with files := f }

/-- What was wanted of the file system, or a fault with a message. -/
def orFault {α : Type} (message : String) (result : Except Files.Refusal α) : Action α :=
  match result with
  | .ok a => pure a
  | .error _ => throw (.ofSystem message)

/-- The bytes of a file. -/
def read (message path : String) : Action ByteArray := do
  orFault message ((← files).read path)

/-- The bytes of a file, or nothing if there is no file. -/
def readIfPresent (message path : String) : Action (Option ByteArray) := do
  match (← files).read path with
  | .ok data => return some data
  | .error .notFound => return none
  | .error _ => throw (.ofSystem message)

def write (message path : String) (data : ByteArray) : Action Unit := do
  setFiles (← orFault message ((← files).write path data))

def makeDirectories (message path : String) : Action Unit := do
  let (result, f) := (← files).makeDirectories path
  setFiles f
  orFault message result

def move (message source target : String) : Action Unit := do
  setFiles (← orFault message ((← files).move source target))

/-- The result of an action that may fail. -/
def attempt {α : Type} (t : Action α) : Action (Except Fault α) :=
  tryCatch (do return .ok (← t)) fun fault ↦ pure (.error fault)

/-- What an action gives and leaves behind. -/
def runIn {α : Type} (t : Action α) (w : World) : Except Fault α × World :=
  StateT.run (ExceptT.run t) w

end Action

end SheetPackages
