import SheetPackages.Command.Run
import Std.Time.Format

/-!
# The program

The files that a command can need are taken over, the command runs on them, and what it has changed
is written back. A question that finds no answer yet is put to the user, and the command runs again
from the start with one more line. There is no web here: requests stay unanswered.
-/

namespace SheetPackages.Shell

/-! ## Files -/

/-- Takes over what is at a place; tells whether that is a directory. -/
def takeAt (place : Place) : StateT Files IO Bool := do
  let path := (← IO.currentDir) / Files.pathOf place
  if ← path.isDir then
    modify (·.put place .directory)
    return true
  if ← path.pathExists then
    let data ← IO.FS.readBinFile path
    modify (·.put place (.file data))
  return false

/-- Takes over what is along a path from a place. -/
def takeAlong (place : Place) : List (List Char) → StateT Files IO Unit
  | [] => pure ()
  | piece :: rest => do
    if Path.isTrivial piece then takeAlong place rest
    else if piece = ['.', '.'] then takeAlong place.dropLast rest
    else
      let place := place ++ [String.ofList piece]
      if ← takeAt place then takeAlong place rest

/-- Takes over what is along a path. -/
def take (path : String) : StateT Files IO Unit := do
  let here := (← get).here
  takeAlong (if Path.isAbsolute path then [] else here) (Text.pieces '/' path.toList)

/-- Takes over what is below a place. -/
partial def takeBelow (place : Place) : StateT Files IO Unit := do
  for e in ← ((← IO.currentDir) / Files.pathOf place).readDir do
    let place := place ++ [e.fileName]
    if ← takeAt place then takeBelow place

/-- Takes over what is at a path, and everything below. -/
def takeTree (path : String) : StateT Files IO Unit := do
  take path
  let f ← get
  if f.isDirectory path then
    if let .ok place := f.locate path then takeBelow place

/-- Whether a file with this content is at a place. -/
def holds (f : Files) (place : Place) (data : ByteArray) : Bool :=
  match f.entry? place with
  | some (.file known) => known.data == data.data
  | _ => false

/-- Writes back what has changed: what is gone, then new directories, then files. -/
def writeBack (old new : Files) : IO Unit := do
  let here ← IO.currentDir
  for (place, e) in old.entries.reverse do
    if (new.entry? place).isNone then
      match e with
      | .directory => IO.FS.removeDir (here / Files.pathOf place)
      | .file _ => IO.FS.removeFile (here / Files.pathOf place)
  for (place, e) in new.entries do
    if let .directory := e then IO.FS.createDirAll (here / Files.pathOf place)
  for (place, e) in new.entries do
    if let .file data := e then
      if !holds old place data then IO.FS.writeBinFile (here / Files.pathOf place) data

/-! ## Running -/

/-- The variables that settings look at. -/
def variableNames : List String :=
  ["FORMULARY_REGISTRY_URL", "FORMULARY_CACHE_DIR", "FORMULARY_WORKBOOK"]

def environment : IO Settings.Environment := do
  let values ← variableNames.filterMapM fun name ↦ do
    return (← IO.getEnv name).map fun value ↦ (name, value)
  return .ofList values

def now : IO Instant := do
  return ⟨(← Std.Time.Timestamp.now).toNanosecondsSinceUnixEpoch.val⟩

/-- The paths of local packages that the project in a workbook depends on. -/
def localPaths (file : Workbook.File) : Action (List String) := do
  match (← file.state).project with
  | none => return []
  | some p => return p.dependencies.filterMap fun text ↦
      (Dependency.parse text).toOption.bind (·.localPath?)

/-- Takes over what an invocation can need. -/
def gather (i : Invocation) (s : Surroundings) (arguments : List String) :
    StateT Files IO Unit := do
  [Settings.tomlPath s.home, Settings.keyValuesPath s.home].forM take
  arguments.forM take
  let w : World := { files := ← get, now := ⟨0⟩ }
  if let (.ok (settings, _), _) := (Settings.load s.home s.environment i.choices).runIn w then
    [settings.cacheDirectory, settings.registry].forM takeTree
    let context : Context := ⟨settings, Files.pathOf w.files.here⟩
    take context.workbook.path
    if let (.ok paths, _) := (localPaths context.workbook).runIn { w with files := ← get } then
      paths.forM take

/-- Seconds with two decimals. -/
def secondsText (milliseconds : Nat) : String :=
  let hundredths := (milliseconds + 5) / 10
  let decimals := Decimal.text (hundredths % 100)
  Decimal.text (hundredths / 100) ++ (if hundredths % 100 < 10 then ".0" else ".") ++ decimals

/-- Runs a command with the lines typed so far, and again while it waits for a line. -/
partial def converse (arguments : List String) (s : Surroundings) (w : World) (said asked : Nat) :
    IO (Outcome × World) := do
  let start ← IO.monoMsNow
  let (o, after) := Command.execute arguments s w
  let seconds := secondsText ((← IO.monoMsNow) - start)
  for m in o.messages.drop said do
    IO.println (m.text seconds)
  IO.eprint (String.ofList (o.asked.toList.drop asked))
  let answer ← if o.isWaiting then (← IO.getStdin).getLine else pure ""
  if answer = "" then return (o, after)
  let typed := s.typed.getD [] ++ [Text.trimmed answer]
  converse arguments { s with typed := some typed } w o.messages.length o.asked.length

def run (arguments : List String) : IO UInt32 := do
  let here := (← IO.FS.realPath (← IO.currentDir)).toString
  let isTyped ← (← IO.getStdin).isTty
  let s : Surroundings := {
    home := (← IO.getEnv "HOME").getD "/"
    environment := ← environment
    typed := if isTyped then some [] else none
    build := ⟨"unknown", "unknown", "unknown"⟩ }
  let pieces := (Text.pieces '/' here.toList).filter fun piece ↦ !Path.isTrivial piece
  let start : Files := { here := pieces.map String.ofList }
  let files ← match Command.read arguments with
    | .ok i => Prod.snd <$> (take "." *> take here *> gather i s arguments).run start
    | .error _ => pure start
  let (o, after) ← converse arguments s { files, now := ← now } 0 0
  IO.eprint o.complaint
  writeBack files after.files
  return UInt32.ofNat o.code

end SheetPackages.Shell

def main (arguments : List String) : IO UInt32 :=
  SheetPackages.Shell.run arguments
