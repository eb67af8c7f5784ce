import SheetPackages.Digest.Sha256
import SheetPackages.Json.Printer
import SheetPackages.Json.Document

/-!
# Named functions

A named function of a workbook: a formula body with its description, its arguments in call order
and the documentation of arguments. Two names are reserved for the bookkeeping of the workbook.
-/

namespace SheetPackages

/-- The documentation of one argument. -/
structure ArgumentInfo where
  description : String := "No description provided."
  «example» : String := "No example provided."
deriving DecidableEq

structure Function where
  name : String
  /-- The formula text, usually with `=` at its beginning. -/
  definition : String
  description : Option String := none
  arguments : List String := []
  info : OrderedMap ArgumentInfo := .empty
deriving DecidableEq

namespace ArgumentInfo

def toJson (a : ArgumentInfo) : Json :=
  .object [("description", .text a.description), ("example", .text a.example)]

def ofDocument? (doc : Json.Document) : Option ArgumentInfo := do
  let fields ← doc.record? ["description", "example"]
  let initial : ArgumentInfo := {}
  let description ← Json.Document.withDefault fields "description" initial.description
    Json.Document.string?
  let sample ← Json.Document.withDefault fields "example" initial.example Json.Document.string?
  return ⟨description, sample⟩

end ArgumentInfo

namespace Function

/-- The function that holds the project of a workbook. -/
def projectName : String := "__GSPROJECT__"

/-- The function that holds the lockfile of a workbook. -/
def lockName : String := "__LOCK__"

def isReserved (name : String) : Bool :=
  name == projectName || name == lockName

/-- The documentation of an argument, or the one that stands for none. -/
def argumentInfo (f : Function) (argument : String) : ArgumentInfo :=
  (f.info.get? argument).getD {}

def renamed (f : Function) (name : String) : Function :=
  { f with name }

/-- The text over which the fingerprint of a function is taken. -/
def canonicalText (f : Function) : String :=
  Json.compact (.object [("arguments", Json.texts f.arguments), ("definition", .text f.definition),
    ("description", .text (f.description.getD ""))])

/-- A short digest of the body, the description and the arguments; the name and the documentation
of the arguments do not count. -/
def fingerprint (f : Function) : String :=
  String.ofList ((Digest.sha256Hex f.canonicalText.toUTF8).toList.take 12)

def infoJson (info : OrderedMap ArgumentInfo) : Json :=
  .object (info.entries.map fun (name, a) ↦ (name, a.toJson))

def toJson (f : Function) : Json :=
  .object [("name", .text f.name), ("definition", .text f.definition),
    ("description", .ofText? f.description), ("arguments", Json.texts f.arguments),
    ("argument_metadata", infoJson f.info)]

def ofDocument? (doc : Json.Document) : Option Function := do
  let fields ← doc.record? ["name", "definition", "description", "arguments", "argument_metadata"]
  let name ← Json.Document.required fields "name" Json.Document.string?
  let definition ← Json.Document.required fields "definition" Json.Document.string?
  let description ← Json.Document.withDefault fields "description" none
    Json.Document.optionalString?
  let arguments ← Json.Document.withDefault fields "arguments" [] Json.Document.strings?
  let info ← Json.Document.withDefault fields "argument_metadata" .empty
    (Json.Document.mapOf? ArgumentInfo.ofDocument?)
  return { name, definition, description, arguments, info }

end Function

/-- The named functions of a workbook, by name. -/
abbrev FunctionMap := OrderedMap Function

end SheetPackages
