import SheetPackages.Command.Console
import SheetPackages.Command.Session
import SheetPackages.Plan.Supply
import SheetPackages.Settings.Sources
import SheetPackages.Workbook.File

/-!
# Programs

A program is a session that talks to a console. It works on one workbook, with one registry and one
store of archives, all of which follow from the settings and the working directory.
-/

namespace SheetPackages

abbrev Program (α : Type) := Session Console α

namespace Program

def say (m : Message) : Program Unit :=
  Session.change (·.say m)

def line (text : String) : Program Unit :=
  say (.line text)

def field (label value : String) : Program Unit :=
  say (.field label value)

def success (text : String) : Program Unit :=
  say (.success text)

/-- Aliases are asked for at the console. -/
def aliasSource : Alias.Source ((World × IndexCache) × Console) :=
  ⟨fun package function (w, c) ↦
    let (answer, c) := c.alias? package function
    (pure answer, w, c)⟩

/-- Makes attempts until functions no longer collide or an alias is refused. Every attempt but the
last one uses up a typed line. -/
def retrying {α : Type} (renames : RenameMaps) (attempt : RenameMaps → Cached α) : Program α :=
  fun s ↦
    let lines := (s.2.typed.getD []).length
    let (ending, s) := Alias.retry aliasSource
      (fun maps ↦ (Session.ofCached (attempt maps)).runIn) lines renames s
    (ending.result, s)

end Program

/-- What a command works with. -/
structure Context where
  settings : Settings
  /-- The working directory. -/
  directory : String

namespace Context

/-- The workbook that is meant when none is named. -/
def initialWorkbook : String := "workbook.json"

def resolve (c : Context) (path : String) : String :=
  Path.join c.directory path

def workbook (c : Context) : Workbook.File :=
  ⟨c.resolve (c.settings.workbook.getD initialWorkbook)⟩

/-- Fills the cache of indexes from its file. -/
def openIndexCache (c : Context) : Program Unit := do
  let cache ← Session.ofAction (IndexCache.load c.settings.indexCachePath)
  Session.ofCached (Cached.setCache cache)

def registry (c : Context) : Program Registry := do
  c.openIndexCache
  Registry.named c.settings.registry c.settings.patience.retries

def store (c : Context) : Program Archive.Store :=
  Session.ofAction (Archive.Store.openAt c.settings.cacheDirectory)

def supply (c : Context) : Program (Supply (StateM (World × IndexCache))) := do
  let registry ← c.registry
  return .ofRegistry registry (← c.store)

end Context

end SheetPackages
