import SheetPackages.Command.Basic
import SheetPackages.Command.Program
import SheetPackages.Plan.Checkout
import SheetPackages.Plan.Install
import SheetPackages.Plan.Removal

/-!
# Commands that change the workbook

Each command reads the workbook once, plans, and then writes what the plan changes. What was changed
is told at the end.
-/

namespace SheetPackages.Program

def load (c : Context) : Program Workbook.State :=
  Session.ofAction c.workbook.state

def carryOut (c : Context) (s : Workbook.State) (p : Plan) : Program Unit :=
  Session.ofAction (c.workbook.performAll (p.changes s))

/-! ## Reports -/

/-- How the entry of a package differs from an older lockfile. -/
def changeText? (old : Lockfile) (name : String) (entry : Locked) : Option String :=
  match old.get? name with
  | none => some s!"  + {name} {entry.version}"
  | some before =>
    if before.version = entry.version then none
    else some s!"  ~ {name} {before.version} -> {entry.version}"

def reportChanges (old : Lockfile) (p : Plan) : Program Unit := do
  (p.lockfile.packages.entries.filterMap fun (name, entry) ↦ changeText? old name entry).forM line
  p.removed.forM fun name ↦ line s!"  - {name}"

/-! ## Authoring -/

/-- The name of the working directory if a project can have it. -/
def nameFrom (c : Context) : String :=
  match Path.fileName? c.directory with
  | some name => if Package.isValidName name then name else Plan.initialProject.name
  | none => Plan.initialProject.name

def init (c : Context) (name : Option String) (draft : Workbook.Draft) : Program Unit := do
  let draft := { draft with name := name.getD (nameFrom c) }
  say (.step "📝" s!"Initializing {draft.name} in {c.workbook.path}")
  draft.check
  match draft.changes? (← Session.ofAction c.workbook.functions) with
  | none =>
    say (.warning
      "Workbook already has project metadata or a lockfile; use --force to overwrite")
  | some changes =>
    Session.ofAction (c.workbook.performAll changes)
    let verb := if draft.force then "Reinitialized" else "Created"
    success s!"{verb} project {draft.name} v{draft.version}"

def pack (c : Context) (directory : String) : Program Unit := do
  let s ← load c
  say (.step "📦" "Packing project functions")
  let p ← Session.ofAction (Workbook.pack s (c.resolve directory))
  success (s!"Wrote {p.path} ({Decimal.text p.functions} functions, " ++
    s!"{Decimal.text p.size} bytes)")

/-! ## Packages -/

def targetOf (fromFiles : Bool) (text : String) : Target :=
  if fromFiles then .archive text else .requirement text

def install (c : Context) (packages : List String) (fromFiles : Bool) (renames : List String) :
    Program Unit := do
  let s ← load c
  if packages.isEmpty ∧ s.project.isNone then throw .noProject
  say (.step "📦"
    (if packages.isEmpty then "Installing project dependencies"
      else s!"Installing {Text.commaSeparated packages}"))
  let supply ← c.supply
  let maps ← Alias.readMaps renames
  let p ← retrying maps
    (Plan.install supply c.settings.maxRounds s (packages.map (targetOf fromFiles)))
  carryOut c s p
  reportChanges s.lockfile p
  say (.updated (p.tally s))

def upgrade (c : Context) (packages renames : List String) : Program Unit := do
  let s ← load c
  say (.step "🔍" "Checking for newer versions")
  let supply ← c.supply
  let maps ← Alias.readMaps renames
  let u ← retrying maps (Plan.upgrade supply c.settings.maxRounds s packages)
  match u.plan with
  | none => success "All packages are up to date"
  | some p =>
    u.versions.entries.forM fun (name, old, new) ↦ line s!"  ~ {name} {old} -> {new}"
    carryOut c s p
    say (.updated (p.tally s))

def remove (c : Context) (packages : List String) : Program Unit := do
  let s ← load c
  let files ← Session.ofAction Action.files
  let p ← Plan.removal (fun path ↦ (files.canonical path).toOption) s packages
  carryOut c s p
  p.removed.forM fun name ↦ line s!"  - {name}"
  success (s!"Removed {Decimal.text p.removed.length} package(s) and " ++
    s!"{Decimal.text p.deleted.length} function(s)")

def dev (c : Context) (package : String) (version : Option String) : Program Unit := do
  let s ← load c
  say (.step "🛠" s!"Checking out {package} for development")
  let supply ← c.supply
  let checkout ← Session.ofCached (Checkout.make supply c.settings.maxRounds s package version)
  let p := checkout.plan
  carryOut c s p
  reportChanges {} p
  line (s!"Project {p.project.name} v{checkout.version} with " ++
    s!"{Decimal.text checkout.sources.length} source functions")
  say (.updated (p.tally s))

end SheetPackages.Program
