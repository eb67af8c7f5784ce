import SheetPackages.Workbook.Records

/-!
# The state of a workbook

What a workbook holds at one moment: its functions, and the project and the lockfile that two of
them keep. It changes by single steps, each of which puts one function under its own name or takes
one away.
-/

namespace SheetPackages.Workbook

structure State where
  /-- Nothing for a workbook without project. -/
  project : Option Project := none
  /-- Empty for a workbook without lockfile. -/
  lockfile : Lockfile := {}
  /-- All functions, the reserved ones among them. -/
  functions : FunctionMap := .empty

namespace State

def ofFunctions (functions : FunctionMap) : State where
  project := project? functions
  lockfile := (lockfile? functions).getD {}
  functions

/-- The project, which has to be there. -/
def needProject (s : State) : Except Fault Project :=
  match s.project with
  | some p => pure p
  | none => throw .noProject

/-- What the project publishes: the functions that are not reserved and that no package owns. -/
def ownFunctions (s : State) : FunctionMap :=
  let owners := s.lockfile.owners
  s.functions.filter fun name _ ↦ !Function.isReserved name && !owners.contains name

end State

/-! ## Changes -/

inductive Change where
  | create (f : Function)
  | update (f : Function)
  | delete (name : String)
deriving DecidableEq

namespace Change

/-- The functions after a change; deleting a name that is not there changes nothing. -/
def apply (functions : FunctionMap) : Change → FunctionMap
  | create f | update f => functions.insert f.name f
  | delete name => functions.erase name

def applyAll (functions : FunctionMap) (changes : List Change) : FunctionMap :=
  changes.foldl apply functions

end Change

end SheetPackages.Workbook
