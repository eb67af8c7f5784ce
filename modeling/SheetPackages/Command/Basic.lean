import SheetPackages.Settings.Layer
import SheetPackages.Workbook.Authoring

/-!
# Commands

What a user can ask for, and the settings given along with it.
-/

namespace SheetPackages

/-- What to drop from the caches. -/
inductive CachePart where
  | packages
  | index
  | all
deriving DecidableEq

inductive CacheCommand where
  | clear (part : CachePart)
  | update
  | info
deriving DecidableEq

inductive Command where
  /-- Without a name the project is named after the working directory. -/
  | init (name : Option String) (draft : Workbook.Draft)
  | info (package version : Option String)
  | dev (package : String) (version : Option String)
  | install (packages : List String) (fromFiles : Bool) (renames : List String)
  | remove (packages : List String)
  | upgrade (packages renames : List String)
  | pack (directory : String)
  | cache (command : CacheCommand)
  | version

structure Invocation where
  command : Command
  choices : Settings.Layer := {}
  verbose : Bool := false

end SheetPackages
