import SheetPackages.Plan.Batch

/-!
# Checkouts

A checkout turns a workbook without project into the project of a published package: the package's
own functions become functions of the workbook that no package owns, and what it requires is
installed.
-/

namespace SheetPackages

structure Checkout where
  package : String
  /-- The version as the index writes it. -/
  version : String
  /-- The package's own functions. -/
  sources : List String
  plan : Plan

namespace Checkout

/-- The version to check out, as the index writes it; the latest one if none is requested. -/
def version? (i : Index) (name : String) (requested : Option String) : Except Fault String := do
  if (i.package? name).isNone then throw (.packageNotFound name)
  let version ← match requested with
    | some text => Version.read text
    | none =>
      match i.latest? name with
      | some version => pure version
      | none => throw (.packageNotFound name)
  match i.key? name version with
  | some key => return key
  | none => throw (.versionNotFound name version.text)

/-- The functions of an archive that become the workbook's own. -/
def sourcesOf (a : Archive) : FunctionMap :=
  a.functions.filter fun name _ ↦ !Function.isReserved name

/-- The sources whose names are in use. -/
def conflicts (s : Workbook.State) (p : Plan) (sources : FunctionMap) : List String :=
  sources.keys.filter fun name ↦ p.functions.contains name || s.functions.contains name

variable {m : Type → Type} [Monad m]

/-- Plans a checkout. -/
def make (supply : Supply m) (limit : Nat) (s : Workbook.State) (package : String)
    (requested : Option String) : ExceptT Fault m Checkout := do
  match s.project with
  | some p => throw (.projectExists p.name)
  | none =>
    let version ← version? (← supply.index) package requested
    let archive ← Batch.fetch supply package version none
    let p := archive.project
    let plan ← Batch.planOf supply s p (← Selected.ofProject supply limit p []) .empty
    let sources := sourcesOf archive
    match conflicts s plan sources with
    | [] =>
      return {
        package
        version
        sources := sources.keys
        plan := { plan with functions := plan.functions.insertAll sources.entries } }
    | found => throw (.functionCollision package found)

end Checkout

end SheetPackages
