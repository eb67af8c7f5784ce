import SheetPackages.Version.Partial

/-!
# Comparators

A comparator is an operator with a partial version, such as `>=1.2` or `==2.*`; without an
operator it asks for that exact version, and `*` alone accepts every version.
-/

namespace SheetPackages.Version

inductive Operator where
  | exact
  | notEqual
  | greater
  | greaterEq
  | less
  | lessEq
  | tilde
  | caret
  | compatible
  | wildcard
deriving DecidableEq

/-- The characters that operators are made of. -/
def isOperatorChar (c : Char) : Bool :=
  c ∈ ['<', '>', '=', '!', '~', '^']

/-- The written operators, those that begin with another one before it. -/
def Operator.table : List (List Char × Operator) :=
  [(['~', '='], .compatible), (['=', '='], .exact), (['!', '='], .notEqual),
    (['>', '='], .greaterEq), (['<', '='], .lessEq), (['>'], .greater), (['<'], .less),
    (['='], .exact), (['^'], .caret), (['~'], .tilde)]

/-- The operator that `s` begins with and the text behind it. -/
def Operator.leading? (s : List Char) : Option (Operator × List Char) :=
  table.findSome? fun (sign, op) ↦ (sign.isPrefixOf? s).map fun rest ↦ (op, rest)

def Operator.chars : Operator → List Char
  | .exact => ['=', '=']
  | .notEqual => ['!', '=']
  | .greater => ['>']
  | .greaterEq => ['>', '=']
  | .less => ['<']
  | .lessEq => ['<', '=']
  | .tilde => ['~']
  | .caret => ['^']
  | .compatible => ['~', '=']
  | .wildcard => ['*']

structure Comparator where
  op : Operator
  version : Partial
deriving DecidableEq

namespace Comparator

/-- The partial version that `op` compares with, once `written` has been read as `p`: an exact
comparator keeps open numbers only behind an explicit `.*`, a bound never does. -/
def settle (op : Operator) (written : List Char) (p : Partial) : Except String Partial :=
  let wild := Partial.endsInWildcard written
  match op with
  | .exact | .notEqual => pure (if wild then p else p.zeroFilled)
  | .compatible =>
    if p.minor.isNone then throw "'~=' needs at least major.minor"
    else if wild then throw "wildcards are only allowed with '==' and '!='"
    else pure p
  | .greater | .greaterEq | .less | .lessEq =>
    if wild then throw "wildcards are only allowed with '==' and '!='" else pure p.zeroFilled
  | .tilde | .caret | .wildcard =>
    if wild then throw "wildcards are only allowed with '==' and '!='" else pure p

def ofChars (s : List Char) : Except Flaw Comparator := do
  let input := Text.trim s
  if input = ['*'] then return ⟨.wildcard, { major := 0 }⟩
  let (op, written) := match Operator.leading? input with
    | some (op, rest) => (op, Text.trim rest)
    | none => (.exact, input)
  if written = [] then throw (.specifier (String.ofList input) "missing version")
  let p ← Partial.ofChars written
  match settle op written p with
  | .ok version => return ⟨op, version⟩
  | .error reason => throw (.specifier (String.ofList input) reason)

def parse (s : String) : Except Flaw Comparator :=
  ofChars s.toList

/-- Whether the comparator accepts `v`. -/
def accepts (c : Comparator) (v : Version) : Bool :=
  match c.op with
  | .exact => c.version.matchesExact v
  | .notEqual => !c.version.matchesExact v
  | .wildcard => true
  | .greater => v.precedence c.version.toVersion == .gt
  | .greaterEq => v.precedence c.version.toVersion != .lt
  | .less => v.precedence c.version.toVersion == .lt
  | .lessEq => v.precedence c.version.toVersion != .gt
  | .tilde => c.version.matchesTilde v
  | .caret => c.version.matchesCaret v
  | .compatible => c.version.matchesCompatible v

def chars (c : Comparator) : List Char :=
  match c.op with
  | .wildcard => Operator.wildcard.chars
  | op =>
    let openEnd := if (op = .exact ∨ op = .notEqual) ∧ c.version.isOpen then ['.', '*'] else []
    op.chars ++ c.version.chars ++ openEnd

def text (c : Comparator) : String :=
  String.ofList c.chars

end Comparator

end SheetPackages.Version
