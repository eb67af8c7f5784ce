import SheetPackages.Json.Printer
import SheetPackages.Function
import SheetPackages.Lockfile.Basic
import SheetPackages.Project
import SheetPackages.Workbook.Grid

/-!
# Projects and lockfiles in a workbook

A workbook keeps its project and its lockfile as array literals in the bodies of two functions with
reserved names. A project has a row for each key with its value, a lockfile a row for each package.
A list is one cell with its entries joined by commas; when it is read, a fragment that cannot begin
an entry, such as `<2.0` in `pkg>=1.0,<2.0`, belongs to the entry before it. A project may also be
the text of a JSON object, with or without quotes around it.
-/

namespace SheetPackages.Workbook

/-! ## Lists in a cell -/

/-- The fragments of a list cell: what stands between commas, without blanks at either end. -/
def fragments (cell : List Char) : List (List Char) :=
  ((Text.pieces ',' cell).map Text.trim).filter (· ≠ [])

/-- Whether a fragment begins as a package name or a function name does. -/
def startsEntry (fragment : List Char) : Bool :=
  fragment.head?.any Dependency.isNameChar

/-- The entries made of some fragments; the first fragment always begins an entry. -/
def entriesOf : List (List Char) → List (List Char)
  | [] => []
  | [fragment] => [fragment]
  | fragment :: next :: rest =>
    match entriesOf (next :: rest) with
    | [] => [fragment]
    | entry :: more =>
      if startsEntry next then fragment :: entry :: more
      else (fragment ++ ',' :: entry) :: more

def splitList (cell : String) : List String :=
  (entriesOf (fragments cell.toList)).map String.ofList

def joinList (items : List String) : String :=
  String.ofList (Text.joined ',' (items.map String.toList))

/-! ## Projects -/

mutual

/-- The text of a value in its cell: a text as it is, a list joined by commas, nothing for null. -/
def cellText : Json → String
  | .null => ""
  | .text s => s
  | .list items => joinList (cellTexts items)
  | .bool b => Json.compact (.bool b)
  | .int n => Json.compact (.int n)
  | .real bits => Json.compact (.real bits)
  | .object members => Json.compact (.object members)

def cellTexts : List Json → List String
  | [] => []
  | item :: rest => cellText item :: cellTexts rest

end

def projectHeader : List String := ["Key", "Value"]

def projectGrid (p : Project) : Grid :=
  [projectHeader, ["name", p.name], ["version", p.version], ["description", p.description],
    ["dependencies", joinList p.dependencies]] ++
    p.extra.entries.map fun (key, value) ↦ [key, cellText value]

/-- The function that keeps a project. -/
def encodeProject (p : Project) : Function where
  name := Function.projectName
  definition := (projectGrid p).text
  description := some "Project Metadata"

/-- Enters the value of a key into a project. -/
def enterKey (p : Project) (key value : String) : Project :=
  match key with
  | "name" => { p with name := value }
  | "version" => { p with version := value }
  | "description" => { p with description := value }
  | "dependencies" => { p with dependencies := splitList value }
  | _ => { p with extra := p.extra.insert key (.text value) }

/-- Enters a row; rows without a value are passed over. -/
def enterRow (p : Project) : List String → Project
  | key :: value :: _ => enterKey p key value
  | _ => p

/-- The project in the rows under a header; at least one row must be there. -/
def projectOfGrid? : Grid → Option Project
  | _ :: row :: rest => some ((row :: rest).foldl enterRow {})
  | _ => none

/-- The JSON text that the body of a function holds, if it is one at all. -/
def jsonBody? (body : List Char) : Option String :=
  match body with
  | '=' :: '"' :: inner =>
    some (String.ofList (Grid.undoubled ((['"'].isSuffixOf? inner).getD inner)))
  | '\x7b' :: _ => some (String.ofList body)
  | _ => none

def projectOfJson? (text : String) : Option Project :=
  (Json.Document.ofString text).bind Project.ofDocument?

def decodeProject? (definition : String) : Option Project :=
  ((jsonBody? (Text.trim definition.toList)).bind projectOfJson?).or
    (projectOfGrid? (Grid.parse definition))

/-! ## Lockfiles -/

def lockHeader : List String :=
  ["Package", "Version", "Resolved", "Integrity", "Dependencies", "Functions"]

def lockGrid (l : Lockfile) : Grid :=
  lockHeader :: l.packages.entries.map fun (name, entry) ↦
    [name, entry.version, entry.resolved.getD "", entry.integrity.getD "",
      joinList entry.dependencies, joinList entry.functions]

/-- The function that keeps a lockfile. -/
def encodeLockfile (l : Lockfile) : Function where
  name := Function.lockName
  definition := (lockGrid l).text
  description := some "Project Lockfile"

/-- A cell that is there and not empty. -/
def filled? (row : List String) (column : Nat) : Option String :=
  row[column]?.filter (!·.isEmpty)

def listAt (row : List String) (column : Nat) : List String :=
  splitList (row.getD column "")

def lockedOfRow? : List String → Option (String × Locked)
  | name :: version :: rest =>
    some (name, {
      version
      resolved := filled? rest 0
      integrity := filled? rest 1
      dependencies := listAt rest 2
      functions := listAt rest 3 })
  | _ => none

/-- The packages in the rows under a header, each function with the first package that lists it. -/
def lockfileOfGrid? : Grid → Option Lockfile
  | [] => none
  | _ :: rows => some (Lockfile.mk (.ofList (rows.filterMap lockedOfRow?))).exclusive

def decodeLockfile? (definition : String) : Option Lockfile :=
  lockfileOfGrid? (Grid.parse definition)

/-! ## Both -/

/-- The project of a workbook, if one of its functions keeps one. -/
def project? (functions : FunctionMap) : Option Project :=
  (functions.get? Function.projectName).bind (decodeProject? ·.definition)

/-- The lockfile of a workbook, if one of its functions keeps one. -/
def lockfile? (functions : FunctionMap) : Option Lockfile :=
  (functions.get? Function.lockName).bind (decodeLockfile? ·.definition)

end SheetPackages.Workbook
