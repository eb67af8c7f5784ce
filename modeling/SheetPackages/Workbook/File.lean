import SheetPackages.Workbook.State
import SheetPackages.World.Basic

/-!
# Workbook files

A workbook kept as a JSON file with one key, `functions`, that maps names to functions. A file that
is not there is an empty workbook. The file is read again before each change and replaced as a
whole, by way of a partial file beside it.
-/

namespace SheetPackages.Workbook

/-- A workbook file, by its path. -/
structure File where
  path : String

namespace File

/-- The functions by name; a function is named by its key whatever its own name says. -/
def functionsOf? (doc : Json.Document) : Option FunctionMap := do
  let fields ← doc.record? ["functions"]
  let functions ← Json.Document.withDefault fields "functions" .empty
    (Json.Document.mapOf? Function.ofDocument?)
  return functions.map fun name f ↦ f.renamed name

def bytes (functions : FunctionMap) : ByteArray :=
  (Json.object [("functions",
    .object (functions.entries.map fun (name, f) ↦ (name, f.toJson)))]).pretty.toUTF8

def functions (file : File) : Action FunctionMap := do
  match ← Action.readIfPresent s!"Failed to read workbook {file.path}" file.path with
  | none => return .empty
  | some data =>
    match (Json.Document.ofBytes data).bind functionsOf? with
    | some functions => return functions
    | none => throw (.malformedJson file.path Fault.unexplained)

def state (file : File) : Action State := do
  return .ofFunctions (← file.functions)

def replace (file : File) (functions : FunctionMap) : Action Unit := do
  match Path.parent? file.path with
  | some "" | none => pure ()
  | some parent => Action.makeDirectories s!"Failed to create {parent}" parent
  let part := file.path ++ ".tmp"
  Action.write s!"Failed to write {part}" part (bytes functions)
  Action.move s!"Failed to replace workbook {file.path}" part file.path

def perform (file : File) (change : Change) : Action Unit := do
  file.replace (change.apply (← file.functions))

/-- Performs changes one after the other; the first that fails is the last. -/
def performAll (file : File) : List Change → Action Unit
  | [] => pure ()
  | change :: rest => do
    file.perform change
    file.performAll rest

end File

end SheetPackages.Workbook
