import SheetPackages.Formula.Tree
import SheetPackages.OrderedMap

/-!
# Renaming in formulas

Identifiers are renamed by a map unless they are bound. `LET(name, value, ..., body)` binds each
name in the values behind its own and in the body, `LAMBDA(parameter, ..., body)` binds its
parameters in the body. Declarations stay as they are, and so do the words `LET` and `LAMBDA`
themselves. A scope is a value, so neighbours never see each other's bindings.
-/

namespace SheetPackages.Formula

/-- Old names with the new ones. -/
abbrev RenameMap := OrderedMap String

/-- The names bound at some place, each one once. -/
structure Scope where
  names : List String := []
deriving DecidableEq

namespace Scope

def contains (s : Scope) (name : String) : Bool :=
  s.names.contains name

/-- The scope that also binds `name`. -/
def bind (s : Scope) (name : String) : Scope :=
  if s.contains name then s else ⟨name :: s.names⟩

/-- The scope that also binds the name of a declaration, if it has one. -/
def bind? (s : Scope) : Option String → Scope
  | some name => s.bind name
  | none => s

def size (s : Scope) : Nat :=
  s.names.length

def isEmpty (s : Scope) : Bool :=
  s.names.isEmpty

def ofList (names : List String) : Scope :=
  names.foldl bind {}

end Scope

/-- The forms of calls: the two that bind names, and all others. -/
inductive CallForm where
  | letForm
  | lambda
  | ordinary
deriving DecidableEq

/-- Whether a name is `word`, in any letter case. -/
def isNamed (word : String) (t : Token) : Bool :=
  Text.sameIgnoringCase t.text word

def CallForm.of (name : Token) : CallForm :=
  if isNamed "LET" name then .letForm
  else if isNamed "LAMBDA" name then .lambda
  else .ordinary

/-- The first identifier among the leaves of a declaration. -/
def declaredName? (slice : List Node) : Option String :=
  slice.findSome? fun
    | .leaf t => if t.kind = .identifier then some t.text else none
    | .call .. => none

def renameToken (m : RenameMap) (scope : Scope) (t : Token) : Token :=
  if t.kind = .identifier ∧ ¬scope.contains t.text then
    match m.get? t.text with
    | some new => t.withText new
    | none => t
  else t

mutual

def renameNode (m : RenameMap) (scope : Scope) : Node → Node
  | .leaf t => .leaf (renameToken m scope t)
  | .call name space opening slices closing =>
    match CallForm.of name with
    | .letForm => .call name space opening (renameLet m scope slices) closing
    | .lambda => .call name space opening (renameLambda m scope slices) closing
    | .ordinary =>
      .call (renameToken m scope name) space opening (renameSlices m scope slices) closing

def renameNodes (m : RenameMap) (scope : Scope) : List Node → List Node
  | [] => []
  | node :: rest => renameNode m scope node :: renameNodes m scope rest

def renameSlices (m : RenameMap) (scope : Scope) : List (List Node) → List (List Node)
  | [] => []
  | slice :: rest => renameNodes m scope slice :: renameSlices m scope rest

/-- Declarations and values in turn; the last slice is the body. -/
def renameLet (m : RenameMap) (scope : Scope) : List (List Node) → List (List Node)
  | [] => []
  | [body] => [renameNodes m scope body]
  | declaration :: value :: rest =>
    declaration :: renameNodes m scope value ::
      renameLet m (scope.bind? (declaredName? declaration)) rest

/-- Parameters and, as the last slice, the body. -/
def renameLambda (m : RenameMap) (scope : Scope) : List (List Node) → List (List Node)
  | [] => []
  | [body] => [renameNodes m scope body]
  | parameter :: body :: rest =>
    parameter :: renameLambda m (scope.bind? (declaredName? parameter)) (body :: rest)

end

/-- The formula with its free identifiers renamed. -/
def rename (m : RenameMap) (formula : String) : String :=
  serialize (renameNodes m {} (parse formula))

end SheetPackages.Formula
