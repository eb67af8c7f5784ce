import SheetPackages.Archive.Store

/-!
# Archives that are kept at the same time

A call that keeps an archive looks whether one is kept already, writes the bytes to a file of its
own, and moves this file to the place of the archive. Other calls may take their steps in between.
The file of a call's own has a name that no other call knows and nobody asks for, so its bytes are
counted to the call and not to the files that all calls see.
-/

namespace SheetPackages.Archive.Store

/-- What a call is to keep. -/
structure Filling where
  name : String
  version : String
  data : ByteArray

/-- How far a call has come, with the path of the archive. -/
inductive Stage where
  | called
  /-- No archive was found. -/
  | absent (path : String)
  /-- The bytes are in a file of the call's own, in the directory of the package. -/
  | written (path : String)
  | done (path : String)
deriving DecidableEq

/-- The step that a call takes next. -/
def step (s : Store) (c : Filling) : Stage → Action Stage
  | .called => do
    let path ← s.pathOf c.name c.version
    if (← Action.files).isFile path then return .done path else return .absent path
  | .absent path => do
    let directory := Path.join s.root c.name
    Action.makeDirectories s!"Failed to create {directory}" directory
    return .written path
  | .written path => do
    Action.write s!"Failed to move artifact to {path}" path c.data
    return .done path
  | .done path => return .done path

/-- The world between two steps, and how far each call has come, if it has not failed. -/
structure Progress (ι : Type) where
  world : World
  stage : ι → Except Fault Stage

section Runs

variable {ι : Type} [DecidableEq ι]

/-- One of the calls takes a step; one that has failed takes none. -/
def advance (s : Store) (calls : ι → Filling) (p : Progress ι) (i : ι) : Progress ι :=
  match p.stage i with
  | .error _ => p
  | .ok stage =>
    let (result, world) := (s.step (calls i) stage).runIn p.world
    { world, stage := fun j ↦ if j = i then result else p.stage j }

/-- All calls are made, and then take their steps in the order of a list. -/
def run (s : Store) (calls : ι → Filling) (w : World) (order : List ι) : Progress ι :=
  order.foldl (s.advance calls) ⟨w, fun _ ↦ .ok .called⟩

end Runs

end SheetPackages.Archive.Store
