import SheetPackages.Command.Basic
import SheetPackages.Command.Program

/-!
# Commands that leave the workbook as it is

They tell about the project, about packages of the registry, about the caches and about the program.
-/

namespace SheetPackages.Program

/-! ## Projects and packages -/

/-- A list with a word for the empty one. -/
def listText (items : List String) : String :=
  if items.isEmpty then "none" else Text.commaSeparated items

def fieldIf (label : String) : Option String → Program Unit
  | some value => field label value
  | none => pure ()

def installedText (name : String) (entry : Locked) : String :=
  s!"  {name} {entry.version} ({Decimal.text entry.functions.length} functions)"

def projectInfo (s : Workbook.State) : Program Unit := do
  let p ← s.needProject
  line s!"{p.name} v{p.version}"
  if p.description ≠ "" then field "Description" p.description
  fieldIf "Author" (p.extraText? "author")
  fieldIf "License" (p.extraText? "license")
  field "Dependencies" (listText p.dependencies)
  if s.lockfile.isEmpty then line "No packages installed"
  else
    line "Installed packages:"
    s.lockfile.packages.entries.forM fun (name, entry) ↦ line (installedText name entry)

/-- Whether a version text stands before another one: newer versions before older ones, and texts
that are no versions last. -/
def isBefore (a b : String) : Bool :=
  match Version.parse a, Version.parse b with
  | .ok v, .ok w => w.precedence v != .gt
  | .error _, .ok _ => false
  | _, _ => true

def releaseText (version : String) (r : Release) : String :=
  if r.dependencies.isEmpty then s!"  {version}"
  else s!"  {version} (requires {Text.commaSeparated r.dependencies})"

/-- The releases of a package, newest first. -/
def sortedReleases (l : Listing) : List (String × Release) :=
  l.versions.entries.mergeSort fun a b ↦ isBefore a.1 b.1

def describe (l : Listing) : Program Unit := do
  if l.description ≠ "" then field "Description" l.description
  fieldIf "Author" l.author
  fieldIf "License" l.license
  fieldIf "Homepage" l.homepage

/-- Tells what one version requires. -/
def dependenciesOf (i : Index) (l : Listing) (name : String) (version : Version) :
    Program Unit := do
  match i.key? name version with
  | none => throw (.versionNotFound name version.text)
  | some key =>
    field s!"Dependencies of {key}"
      (listText (((l.versions.get? key).map Release.dependencies).getD []))

def packageInfo (c : Context) (s : Workbook.State) (name : String) (version : Option String) :
    Program Unit := do
  let registry ← c.registry
  let i ← Session.ofCached registry.index
  match i.package? name with
  | none => throw (.packageNotFound name)
  | some l =>
    line name
    describe l
    let latest := i.latest? name
    fieldIf "Latest" (latest.map Version.text)
    fieldIf "Installed" ((s.lockfile.get? name).map Locked.version)
    let shown ← match version with
      | some text => some <$> Version.read text
      | none => pure latest
    match shown with
    | some version => dependenciesOf i l name version
    | none => pure ()
    line "Versions:"
    (sortedReleases l).forM fun (version, r) ↦ line (releaseText version r)

def info (c : Context) (package version : Option String) : Program Unit := do
  let s ← Session.ofAction c.workbook.state
  match package with
  | some name => packageInfo c s name version
  | none => projectInfo s

/-! ## Caches -/

def clear (c : Context) (part : CachePart) : Program Unit := do
  if part ≠ .packages then
    c.openIndexCache
    Session.ofCached Cached.clear
    success "Cleared registry index cache"
  if part ≠ .index then
    let store ← c.store
    Session.ofAction store.clear
    success s!"Cleared package archives in {c.settings.cacheDirectory}"

def cacheInfo (c : Context) : Program Unit := do
  let store ← c.store
  let stats ← Session.ofAction store.stats
  c.openIndexCache
  let now ← Session.ofCached Cached.now
  let indexes := (← Session.ofCached Cached.cache).stats now
  line s!"Cache at {c.settings.cacheDirectory}"
  field "Packages" (Decimal.text stats.packages)
  field "Archives" (Decimal.text stats.archives)
  field "Size" s!"{Decimal.text stats.bytes} bytes"
  field "Index entries" s!"{Decimal.text indexes.all} ({Decimal.text indexes.fresh} fresh)"

def updateIndex (c : Context) : Program Unit := do
  say (.step "🔄" s!"Refreshing {c.settings.registry}")
  let registry ← c.registry
  let i ← Session.ofCached registry.refresh
  success s!"Registry index lists {Decimal.text i.size} packages"

def cache (c : Context) : CacheCommand → Program Unit
  | .clear part => clear c part
  | .update => updateIndex c
  | .info => cacheInfo c

/-! ## The program itself -/

/-- How the program was built. -/
structure Build where
  date : String
  target : String
  compiler : String

def version : String := "0.1.0"

def showVersion (c : Context) (b : Build) : Program Unit := do
  line s!"formulary v{version}"
  field "Built" b.date
  field "Target" b.target
  field "Rust" b.compiler
  field "Registry" c.settings.registry
  field "Cache" c.settings.cacheDirectory

end SheetPackages.Program
