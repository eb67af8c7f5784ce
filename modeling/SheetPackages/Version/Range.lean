import SheetPackages.Version.Comparator

/-!
# Version ranges

A range is a list of comparators that must all accept. It is written with commas or blanks between
the comparators, and an operator may stand apart from its version. The empty range accepts every
version.
-/

namespace SheetPackages.Version

structure Range where
  comparators : List Comparator := []
deriving DecidableEq

namespace Range

/-- The range that accepts every version. -/
def any : Range := {}

def operatorWithoutVersion (op : List Char) : String :=
  s!"operator '{String.ofList op}' has no version"

/-- The comparators of one clause: a word of operator characters waits for the next word, and a
later one takes its place. -/
def clause (input : List Char) (pending : Option (List Char)) :
    List (List Char) → Except Flaw (List Comparator)
  | [] =>
    match pending with
    | none => pure []
    | some op => throw (.specifier (String.ofList input) (operatorWithoutVersion op))
  | word :: rest =>
    if word.all isOperatorChar then clause input (some word) rest
    else do
      let comparator ← Comparator.ofChars (pending.getD [] ++ word)
      return comparator :: (← clause input none rest)

def clauses (input : List Char) : List (List Char) → Except Flaw (List Comparator)
  | [] => pure []
  | piece :: rest => do
    let here ← clause input none (Text.words piece)
    return here ++ (← clauses input rest)

def ofChars (s : List Char) : Except Flaw Range := do
  return ⟨← clauses s (Text.pieces ',' s)⟩

def parse (s : String) : Except Flaw Range :=
  ofChars s.toList

def accepts (r : Range) (v : Version) : Bool :=
  r.comparators.all (·.accepts v)

/-- No comparator constrains the version. -/
def isAny (r : Range) : Bool :=
  r.comparators.all (·.op = .wildcard)

def chars (r : Range) : List Char :=
  Text.joined ',' (r.comparators.map Comparator.chars)

def text (r : Range) : String :=
  String.ofList r.chars

end Range

end SheetPackages.Version
