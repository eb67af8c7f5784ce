import SheetPackages.Command.Alias
import SheetPackages.Plan.Basic

/-!
# The console

What a command tells the user, and the lines that the user types. Questions go to a stream of their
own and wait for an answer on the same line.
-/

namespace SheetPackages

inductive Message where
  | line (text : String)
  /-- A step that takes some time. -/
  | step (marker text : String)
  | field (label value : String)
  | success (text : String)
  | warning (text : String)
  /-- The workbook has been changed. -/
  | updated (t : Plan.Tally)
deriving DecidableEq

namespace Message

def tallyText (t : Plan.Tally) : String :=
  s!"{Decimal.text t.created} created, {Decimal.text t.updated} updated, " ++
    s!"{Decimal.text t.unchanged} unchanged, {Decimal.text t.deleted} deleted"

/-- The text of a message; `seconds` is how long the command has taken. -/
def text (seconds : String) : Message → String
  | line text => text
  | step marker text => s!"{marker} {text}"
  | field label value => s!"  {label}: {value}"
  | success text => s!"✓ {text}"
  | warning text => s!"⚠ {text}"
  | updated t => s!"✓ Workbook updated in {seconds}s: {tallyText t}"

end Message

structure Console where
  /-- The lines that are still to be read; nothing where nobody types. -/
  typed : Option (List String) := none
  /-- What has been said, latest message first. -/
  said : List Message := []
  /-- The questions that have been asked, one after the other. -/
  asked : String := ""
  /-- Whether a question has found no line any more. -/
  isWaiting : Bool := false

namespace Console

def say (c : Console) (m : Message) : Console :=
  { c with said := m :: c.said }

/-- What has been said, in order. -/
def messages (c : Console) : List Message :=
  c.said.reverse

def ask (c : Console) (question : String) : Console :=
  { c with asked := c.asked ++ s!"? {question} " }

def aliasQuestion (package function : String) : String :=
  s!"'{function}' from {package} already exists. New name (empty to abort):"

/-- Asks for an alias until a line has a valid one. An empty line, or no line any more, is none. -/
def askAlias (package function : String) (c : Console) : List String → Option String × Console
  | [] =>
    (none, { c.ask (aliasQuestion package function) with typed := some [], isWaiting := true })
  | line :: rest =>
    let c := c.ask (aliasQuestion package function)
    let answer := Text.trimmed line
    if answer.isEmpty then (none, { c with typed := some rest })
    else if Alias.isValid answer then (some answer, { c with typed := some rest })
    else askAlias package function
      (c.say (.warning s!"'{answer}' is not a valid function name")) rest

/-- The alias that the user gives; none where nobody types. -/
def alias? (package function : String) (c : Console) : Option String × Console :=
  match c.typed with
  | none => (none, c)
  | some lines => askAlias package function c lines

end Console

end SheetPackages
