import SheetPackages.Workbook.State

/-!
# Plans

A plan is the state that an operation wants a workbook to have. Nothing is written while it is made.
Its changes take obsolete functions away first, then write the functions that differ, then the
project, and the lockfile last; so a lockfile never claims functions that are still to be written.
-/

namespace SheetPackages

structure Plan where
  project : Project
  /-- The functions of the packages, under their final names. -/
  functions : FunctionMap := .empty
  lockfile : Lockfile
  /-- Functions that packages owned and that no package provides any more. -/
  obsolete : List String
  /-- Packages of the old lockfile that the new one lacks. -/
  removed : List String

namespace Plan

open Workbook (Change State)

/-- The obsolete functions that are to be deleted. -/
def deleted (p : Plan) : List String :=
  p.obsolete.filter fun name ↦ !p.functions.contains name

/-- How a planned function is written; one that is there with the same fingerprint is not. -/
def writing? (s : State) (name : String) (f : Function) : Option Change :=
  match s.functions.get? name with
  | none => some (.create f)
  | some old => if old.fingerprint = f.fingerprint then none else some (.update f)

def writings (s : State) (p : Plan) : List Change :=
  p.functions.entries.filterMap fun (name, f) ↦ writing? s name f

/-- What leads from the state for which a plan was made to the planned state. -/
def changes (s : State) (p : Plan) : List Change :=
  p.deleted.map .delete ++ writings s p ++
    [.update (Workbook.encodeProject p.project), .update (Workbook.encodeLockfile p.lockfile)]

/-! ## Counts -/

/-- How many functions of packages a plan touches and how. -/
structure Tally where
  created : Nat
  updated : Nat
  unchanged : Nat
  deleted : Nat
deriving DecidableEq

def isCreation : Change → Bool
  | .create _ => true
  | _ => false

def tally (s : State) (p : Plan) : Tally :=
  let writings := writings s p
  let created := writings.countP isCreation
  { created
    updated := writings.length - created
    unchanged := p.functions.size - writings.length
    deleted := p.deleted.length }

end Plan

end SheetPackages
