import SheetPackages.Settings.Layer

/-!
# Key-value files

The older form of a settings file: one `KEY=VALUE` pair a line. Empty lines, comments that begin
with `#` and lines without `=` are passed over.
-/

namespace SheetPackages.Settings

/-- Pairs in written order; a later pair of the same key wins. -/
abbrev KeyValues := List (String × String)

namespace KeyValues

def pair? (line : List Char) : Option (String × String) :=
  match Text.trim line with
  | '#' :: _ => none
  | line => (Text.cut? '=' line).map fun (key, value) ↦
    (String.ofList (Text.trim key), String.ofList (Text.trim value))

def parse (content : String) : KeyValues :=
  (Text.lines content.toList).filterMap pair?

def text (pairs : KeyValues) : String :=
  String.join (pairs.map fun (key, value) ↦ key ++ "=" ++ value ++ "\n")

/-- The path in a workbook setting, which may be written as an address of a file. -/
def workbookPath (value : String) : String :=
  (Text.behind? "file://" value).getD value

/-- Enters a pair into a layer. The workbook has two keys, the second one from when workbooks were
single sheets. -/
def enter (l : Layer) : String × String → Layer
  | ("FORMULARY_REGISTRY_URL", value) => { l with registry := some value }
  | ("FORMULARY_CACHE_DIR", value) => { l with cacheDirectory := some value }
  | ("FORMULARY_WORKBOOK", value) => { l with workbook := some (workbookPath value) }
  | ("FORMULARY_SHEET_URL", value) => { l with workbook := some (workbookPath value) }
  | _ => l

def layer (pairs : KeyValues) : Layer :=
  pairs.foldl enter {}

end KeyValues

/-- Variables of the environment, by name. -/
abbrev Environment := OrderedMap String

/-- The settings given by variables of the environment, each taken as it is. -/
def Environment.layer (env : Environment) : Layer where
  registry := env.get? "FORMULARY_REGISTRY_URL"
  cacheDirectory := env.get? "FORMULARY_CACHE_DIR"
  workbook := env.get? "FORMULARY_WORKBOOK"

end SheetPackages.Settings
