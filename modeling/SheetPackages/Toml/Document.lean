import SheetPackages.Toml.Scalar

/-!
# TOML documents

A document is a sequence of lines: keys with their values, and headers that open a table for the
keys below them. Settings have no tables below the first level, so headers with longer names and
lists of tables are refused. Lists and tables within a value nest below a fixed depth.
-/

namespace SheetPackages.Toml

def isBareKeyChar (c : Char) : Bool :=
  Decimal.isDigit c || ('a' ≤ c && c ≤ 'z') || ('A' ≤ c && c ≤ 'Z') || c = '_' || c = '-'

def skipSpaces (s : List Char) : List Char :=
  s.dropWhile isSpace

/-- One part of a dotted key. -/
def keyPart : List Char → Option (String × List Char)
  | '"' :: rest => oneLine '"' [] rest
  | '\'' :: rest => oneLine '\'' [] rest
  | s =>
    match s.takeWhile isBareKeyChar with
    | [] => none
    | key => some (String.ofList key, s.dropWhile isBareKeyChar)

/-- A dotted key with blanks around its parts. -/
def key (s : List Char) : Option (List String × List Char) := do
  let (part, rest) ← keyPart (skipSpaces s)
  match skipSpaces rest with
  | '.' :: more =>
    if _h : more.length < s.length then
      let (parts, rest) ← key more
      return (part :: parts, rest)
    else none
  | rest => return ([part], rest)
termination_by s.length

/-- The rest of a line behind a comment that may stand here. -/
def skipComment : List Char → List Char
  | '#' :: rest => rest.dropWhile isPlain
  | s => s

/-- The rest behind blanks, line ends and comments. -/
def skipAll (s : List Char) : List Char :=
  match skipLines s with
  | '#' :: rest =>
    if _h : (rest.dropWhile isPlain).length < s.length then skipAll (rest.dropWhile isPlain) else s
  | rest => rest
termination_by s.length

/-- The deepest nesting of lists and tables within a value. -/
def maxDepth : Nat := 79

mutual

def value (depth : Nat) (s : List Char) : Option (Value × List Char) :=
  match s with
  | '"' :: rest => (quotedText '"' rest).map fun (t, rest) ↦ (.text t, rest)
  | '\'' :: rest => (quotedText '\'' rest).map fun (t, rest) ↦ (.text t, rest)
  | '[' :: rest =>
    match depth with
    | 0 => none
    | depth + 1 => (items depth rest).map fun (found, rest) ↦ (.list found, rest)
  | '\x7b' :: rest =>
    match depth with
    | 0 => none
    | depth + 1 => do
      let (found, rest) ← match skipSpaces rest with
        | '\x7d' :: rest => some ([], rest)
        | _ => pairs depth rest
      return (.table false (← enterAll [] found), rest)
  | s => scalar s
termination_by (depth, 0, s.length)

/-- The items of a list up to its closing bracket; a comma may stand behind the last one. -/
def items (depth : Nat) (s : List Char) : Option (List Value × List Char) :=
  match skipAll s with
  | ']' :: rest => some ([], rest)
  | s' => do
    let (v, rest) ← value depth s'
    match skipAll rest with
    | ',' :: rest =>
      if _h : rest.length < s.length then
        let (more, rest) ← items depth rest
        return (v :: more, rest)
      else none
    | ']' :: rest => return ([v], rest)
    | _ => none
termination_by (depth, 1, s.length)

/-- The keys and values of a table up to its closing brace. -/
def pairs (depth : Nat) (s : List Char) : Option (List (List String × Value) × List Char) := do
  let (k, rest) ← key s
  match rest with
  | '=' :: rest =>
    let (v, rest) ← value depth (skipSpaces rest)
    match skipSpaces rest with
    | ',' :: rest =>
      if _h : rest.length < s.length then
        let (more, rest) ← pairs depth rest
        return ((k, v) :: more, rest)
      else none
    | '\x7d' :: rest => return ([(k, v)], rest)
    | _ => none
  | _ => none
termination_by (depth, 1, s.length)

end

/-- The tables of a document: the entries given before the first header, and each opened table with
its entries, latest one first. -/
structure Draft where
  top : Entries := []
  opened : List (String × Entries) := []

namespace Draft

/-- Enters a value into the table that was opened last. -/
def enter (d : Draft) (key : List String) (v : Value) : Option Draft :=
  match d.opened with
  | [] => (Toml.enter v key d.top).map fun top ↦ { d with top }
  | (name, entries) :: rest =>
    (Toml.enter v key entries).map fun entries ↦ { d with opened := (name, entries) :: rest }

/-- Opens a table whose name is not in use. -/
def openTable (d : Draft) : List String → Option Draft
  | [name] =>
    if (d.top.lookup name).isSome ∨ (d.opened.lookup name).isSome then none
    else some { d with opened := (name, []) :: d.opened }
  | _ => none

def finish (d : Draft) : Value :=
  .table false (d.top ++ d.opened.reverse.map fun (name, entries) ↦ (name, .table false entries))

end Draft

/-- What is left behind the end of a line, blanks and a comment before it included. -/
def lineEnd (s : List Char) : Option (List Char) :=
  match skipComment (skipSpaces s) with
  | [] => some []
  | rest => newline? rest

/-- Reads one line that is not empty. -/
def line (d : Draft) : List Char → Option (Draft × List Char)
  | '[' :: rest => do
    let (name, rest) ← key rest
    let rest ← lineEnd (← behind? ']' rest)
    return (← d.openTable name, rest)
  | s => do
    let (k, rest) ← key s
    let (v, rest) ← value maxDepth (skipSpaces (← behind? '=' rest))
    return (← d.enter k v, ← lineEnd rest)

/-- Reads lines to the end. -/
def readLines (d : Draft) (s : List Char) : Option Value :=
  match skipSpaces s with
  | [] => some d.finish
  | c :: rest =>
    let next := match lineEnd (c :: rest) with
      | some after => some (d, after)
      | none => line d (c :: rest)
    match next with
    | none => none
    | some (d, after) => if _h : after.length < s.length then readLines d after else none
termination_by s.length

/-- The table that a document describes. A byte order mark may stand in front. -/
def parse (s : String) : Option Value :=
  match s.toList with
  | '\ufeff' :: rest => readLines {} rest
  | chars => readLines {} chars

end SheetPackages.Toml
