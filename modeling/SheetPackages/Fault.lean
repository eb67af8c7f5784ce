import SheetPackages.Dependency

/-!
# Faults

Everything that can keep an operation from succeeding, as data, with one place for the wording.
Where another format's reader or the system found the fault, no further detail is known.
-/

namespace SheetPackages

inductive Fault where
  | malformedToml (path detail : String)
  | malformedJson (context detail : String)
  | invalidSetting (field reason : String)
  | noProject
  | projectExists (name : String)
  | invalidRequirement (input reason : String)
  | invalidVersion (flaw : Version.Flaw)
  | packageNotFound (name : String)
  | versionNotFound (name version : String)
  | archiveNotFound (path : String)
  | network (message : String) (cause : Option String)
  | unsatisfiable (requirements : List Dependency)
  | tooManyRounds (limit : Nat)
  | functionCollision (package : String) (conflicts : List String)
  | notInstalled (name : String)
  | nothingToPack (name : String)
  | corruptArchive (path reason : String)
  | integrityMismatch (package expected actual : String)
  | unsafePath (path : String)
  | io (message cause : String)
  /-- A lifetime whose milliseconds do not fit a signed 64-bit word. -/
  | lifetimeOutOfRange (seconds : Int)
deriving DecidableEq

namespace Fault

/-- Stands for a detail that is not known. -/
def unexplained : String := "*"

def message : Fault → String
  | malformedToml path detail => s!"Failed to parse {path}: {detail}"
  | malformedJson context detail => s!"Failed to parse JSON in {context}: {detail}"
  | invalidSetting field reason => s!"Configuration field '{field}' is invalid: {reason}"
  | noProject => "No project initialized. Run 'formulary init' first"
  | projectExists name => s!"Workbook already contains project '{name}'"
  | invalidRequirement input reason => s!"Invalid requirement '{input}': {reason}"
  | invalidVersion flaw => flaw.message
  | packageNotFound name => s!"Package '{name}' not found in registry"
  | versionNotFound name version => s!"Version {version} of package '{name}' not found"
  | archiveNotFound path => s!"Local package not found at {path}"
  | network message _ => s!"Network error: {message}"
  | unsatisfiable requirements =>
    s!"Could not satisfy requirements: {Text.commaSeparated (requirements.map Dependency.text)}"
  | tooManyRounds limit => s!"Resolution exceeded {Decimal.text limit} rounds without converging"
  | functionCollision package conflicts =>
    s!"Package '{package}' has conflicting functions: {Text.commaSeparated conflicts}"
  | notInstalled name => s!"Package '{name}' is not installed"
  | nothingToPack name => s!"Project '{name}' has no functions of its own to pack"
  | corruptArchive path reason => s!"Archive {path} is corrupt: {reason}"
  | integrityMismatch package expected actual =>
    s!"Integrity check failed for {package}: expected {expected}, got {actual}"
  | unsafePath path => s!"Refusing unsafe path: {path}"
  | io message _ => s!"IO error: {message}"
  | lifetimeOutOfRange seconds => s!"Lifetime of {Json.intText seconds} seconds is out of range"

/-- Faults after which the same operation may succeed: the outside may change, and a collision is
resolved by aliases. -/
def isRecoverable : Fault → Bool
  | network _ _ | io _ _ | functionCollision _ _ => true
  | _ => false

/-- What the user can do about a fault. -/
def suggestion? : Fault → Option String
  | packageNotFound _ => some "Check the package name spelling or run 'formulary cache update'"
  | versionNotFound _ _ => some "Run 'formulary info <package>' to list the published versions"
  | network _ _ => some "Check your internet connection and try again"
  | unsatisfiable _ => some "Relax the version specifiers or upgrade the conflicting packages"
  | functionCollision _ _ =>
    some "Install again and provide an alias for each conflicting function"
  | notInstalled _ => some "Check the installed packages with 'formulary info'"
  | noProject => some "Run 'formulary init' to create the project metadata"
  | projectExists _ => some "Start package development in a workbook without project metadata"
  | integrityMismatch _ _ _ => some "Run 'formulary cache clear packages' and install again"
  | archiveNotFound _ => some "Check the path passed to --local"
  | nothingToPack _ => some "Define at least one named function that no installed package owns"
  | tooManyRounds _ => some "Pin some dependencies to narrow the search"
  | _ => none

/-- The cause under a fault that the outside reported. -/
def cause? : Fault → Option String
  | network _ cause => cause
  | io _ cause => some cause
  | _ => none

/-- A one-line report. -/
def brief (message : String) : String :=
  "error: " ++ message

/-- The report of a fault: its message, a suggestion and the cause, each if there is one. -/
def report (f : Fault) : String :=
  brief f.message ++ "\n" ++
    (match f.suggestion? with
      | some hint => "\nhelp: " ++ hint ++ "\n"
      | none => "") ++
    (match f.cause? with
      | some cause => "\ncaused by: " ++ cause
      | none => "")

/-- A fault of the file system; what the system says about it is not known. -/
def ofSystem (message : String) : Fault :=
  .io message unexplained

end Fault

/-- The fault of a requirement that does not begin with a name. -/
def Dependency.Nameless.fault (n : Dependency.Nameless) : Fault :=
  .invalidRequirement n.input "requirement must start with a package name"

/-- Reads a requirement and reports one that has no name. -/
def Dependency.read (s : String) : Except Fault Dependency :=
  (Dependency.parse s).mapError Dependency.Nameless.fault

def Dependency.readAll (items : List String) : Except Fault (List Dependency) :=
  items.mapM Dependency.read

/-- Reads a version and reports why a text is none. -/
def Version.read (s : String) : Except Fault Version :=
  (Version.parse s).mapError .invalidVersion

end SheetPackages
