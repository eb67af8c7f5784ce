import SheetPackages.Command.Arguments
import SheetPackages.Command.Inspect
import SheetPackages.Command.Modify

/-!
# Running the program

The arguments name a command, the settings of the user say where it works, and a fault ends it with
a report. Arguments that cannot be understood end the program before anything else happens.
-/

namespace SheetPackages

/-- What a program finds around it besides the world. -/
structure Surroundings where
  home : String
  environment : Settings.Environment := .empty
  /-- The lines that the user types; nothing where nobody types. -/
  typed : Option (List String) := none
  build : Program.Build

/-- How a program ends. -/
structure Outcome where
  code : Nat := 0
  messages : List Message := []
  asked : String := ""
  /-- Why the program did not do what was wanted. -/
  complaint : String := ""
  /-- Whether it would go on differently if more had been typed. -/
  isWaiting : Bool := false

/-- What was asked and reported besides the messages. -/
def Outcome.report (o : Outcome) : String :=
  o.asked ++ o.complaint

namespace Command

def usage : String :=
  "Package manager for spreadsheet named functions\n\n" ++
  "Usage: formulary [OPTIONS] <COMMAND>\n\n" ++
  "Commands:\n" ++
  "  init     Write initial project metadata into the workbook\n" ++
  "  info     Show the project, or registry details of a package\n" ++
  "  dev      Check out a registry package as the workbook's project\n" ++
  "  install  Install packages, or reinstall the project's dependencies\n" ++
  "  remove   Remove packages and their orphaned dependencies\n" ++
  "  upgrade  Upgrade packages to the newest allowed versions\n" ++
  "  pack     Build a package archive from the project's own functions\n" ++
  "  cache    Manage the local caches\n" ++
  "  version  Show version information\n" ++
  "  help     Print this message or the help of the given subcommand(s)\n\n" ++
  "Options:\n" ++
  "  -v, --verbose          Enable verbose output\n" ++
  "      --registry <URL>   Registry base URL or local registry directory\n" ++
  "      --cache-dir <DIR>  Artifact cache directory\n" ++
  "      --workbook <FILE>  Workbook file holding the named functions\n" ++
  "  -h, --help             Print help\n" ++
  "  -V, --version          Print version"

/-- The ending of a program whose arguments name no command to run. -/
def Halt.outcome : Halt → Outcome
  | misuse m => {
      code := 2
      complaint := s!"error: {m.message}\n\nFor more information, try '--help'.\n" }
  | version => { messages := [.line s!"formulary {Program.version}"] }
  | help => { messages := [.line usage] }

/-- The program of a command. -/
def program (c : Context) (b : Program.Build) : Command → Program Unit
  | .init name draft => Program.init c name draft
  | .info package requested => Program.info c package requested
  | .dev package requested => Program.dev c package requested
  | .install packages fromFiles renames => Program.install c packages fromFiles renames
  | .remove packages => Program.remove c packages
  | .upgrade packages renames => Program.upgrade c packages renames
  | .pack directory => Program.pack c directory
  | .cache command => Program.cache c command
  | .version => Program.showVersion c b

end Command

namespace Invocation

/-- The settings are read before anything else. -/
def program (i : Invocation) (s : Surroundings) : Program Unit := do
  let directory := Files.pathOf (← Session.ofAction Action.files).here
  let (settings, _) ← Session.ofAction (Settings.load s.home s.environment i.choices)
  i.command.program { settings, directory } s.build

/-- Runs a command in a world. -/
def run (i : Invocation) (s : Surroundings) (w : World) : Outcome × World :=
  let (result, (w, _), c) :=
    (i.program s).runIn ((w, {}), { typed := s.typed })
  let o : Outcome := { messages := c.messages, asked := c.asked, isWaiting := c.isWaiting }
  match result with
  | .ok () => (o, w)
  | .error fault => ({ o with code := 1, complaint := fault.report ++ "\n" }, w)

end Invocation

/-- Runs the program with some arguments. -/
def Command.execute (arguments : List String) (s : Surroundings) (w : World) : Outcome × World :=
  match Command.read arguments with
  | .ok i => i.run s w
  | .error halt => (halt.outcome, w)

end SheetPackages
