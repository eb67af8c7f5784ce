import SheetPackages.Command.Basic
import SheetPackages.Command.Grammar

/-!
# The command line

Every command with its options. Some options can be given before or behind any command; where one
is given more than once, the innermost counts.
-/

namespace SheetPackages.Command

/-! ## Forms -/

def helpSwitch : Switch where
  name := "help"
  letter := some 'h'
  arity := .flag
  halt := some .help

def versionSwitch : Switch where
  name := "version"
  letter := some 'V'
  arity := .flag
  halt := some .version

/-- The options of every command. -/
def commonSwitches : List Switch :=
  [{ name := "verbose", letter := some 'v', arity := .flag }, { name := "registry" },
    { name := "cache-dir" }, { name := "workbook" }, helpSwitch]

def renameSwitch : Switch where
  name := "rename"
  arity := .repeated

def topForm : Form where
  switches := versionSwitch :: commonSwitches
  commands := ["init", "info", "dev", "install", "remove", "upgrade", "pack", "cache", "version",
    "help"]

def cacheForm : Form where
  switches := commonSwitches
  commands := ["clear", "update", "info", "help"]

def partOf? : String → Option CachePart
  | "packages" => some .packages
  | "index" => some .index
  | "all" => some .all
  | _ => none

def form : String → Form
  | "init" => {
      switches := [{ name := "name" }, { name := "version" }, { name := "description" },
        { name := "author" }, { name := "license" },
        { name := "force", letter := some 'f', arity := .flag }] ++ commonSwitches }
  | "info" => { switches := commonSwitches, most := some 2 }
  | "dev" => { switches := commonSwitches, least := 1, most := some 2 }
  | "install" => {
      switches := { name := "local", arity := .flag } :: renameSwitch :: commonSwitches
      most := none }
  | "remove" => { switches := commonSwitches, least := 1, most := none }
  | "upgrade" => { switches := renameSwitch :: commonSwitches, most := none }
  | "pack" => {
      switches := { name := "out-dir", letter := some 'o', accepts := (· ≠ "") } ::
        commonSwitches }
  | _ => { switches := commonSwitches }

def clearForm : Form where
  switches := commonSwitches
  most := some 1
  acceptsWord word := (partOf? word).isSome

/-! ## Commands -/

def initOf (g : Given) : Command :=
  .init (g.value? "name") {
    name := ""
    version := (g.value? "version").getD "0.1.0"
    description := (g.value? "description").getD ""
    author := g.value? "author"
    license := g.value? "license"
    force := g.has "force" }

/-- The command of a name with what is given to it. -/
def ofGiven (name : String) (g : Given) : Except Halt Command :=
  match name, g.words with
  | "init", _ => pure (initOf g)
  | "info", words => pure (.info words[0]? words[1]?)
  | "dev", package :: words => pure (.dev package words.head?)
  | "install", words => pure (.install words (g.has "local") (g.values "rename"))
  | "remove", words => pure (.remove words)
  | "upgrade", words => pure (.upgrade words (g.values "rename"))
  | "pack", _ => pure (.pack ((g.value? "out-dir").getD "dist"))
  | "version", _ => pure .version
  | _, _ => throw .help

/-- Help is given about a command; each word has to name a command of the one before it. -/
def helpAbout (commands : List String) : List String → Halt
  | [] => .help
  | name :: rest =>
    if name ∈ commands then helpAbout (if name = "cache" then cacheForm.commands else []) rest
    else .misuse (.unknownCommand name)

def readCache (arguments : List String) : Except Halt (CacheCommand × List Given) := do
  let (outer, rest) ← cacheForm.read arguments
  match rest with
  | "clear" :: rest =>
    let (g, _) ← clearForm.read rest
    return (.clear ((g.words.head?.bind partOf?).getD .all), [outer, g])
  | "update" :: rest =>
    let (g, _) ← (form "update").read rest
    return (.update, [outer, g])
  | "info" :: rest =>
    let (g, _) ← ({ switches := commonSwitches } : Form).read rest
    return (.info, [outer, g])
  | rest => throw (helpAbout cacheForm.commands (rest.drop 1))

/-- The value of an option on the innermost level that has it. -/
def innermost? (levels : List Given) (option : String) : Option String :=
  levels.reverse.findSome? (·.value? option)

def invocation (levels : List Given) (command : Command) : Invocation where
  command
  choices := {
    registry := innermost? levels "registry"
    cacheDirectory := innermost? levels "cache-dir"
    workbook := innermost? levels "workbook" }
  verbose := levels.any (·.has "verbose")

/-- Reads the arguments of the program. -/
def read (arguments : List String) : Except Halt Invocation := do
  let (top, rest) ← topForm.read arguments
  match rest with
  | "cache" :: rest =>
    let (command, levels) ← readCache rest
    return invocation (top :: levels) (.cache command)
  | "help" :: rest => throw (helpAbout topForm.commands rest)
  | [] => throw .help
  | name :: rest =>
    let (g, _) ← (form name).read rest
    return invocation [top, g] (← ofGiven name g)

end SheetPackages.Command
