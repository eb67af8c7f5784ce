import SheetPackages.Json.Lexer
import SheetPackages.OrderedMap

/-!
# JSON documents

A document is what a JSON text says before anybody asks for values: members of objects in written
order with repeated keys, numerals as written, and texts that may have no value. Documents nest to
any depth; the values read from one do not nest deeper than 127 levels.
-/

namespace SheetPackages.Json

inductive Document where
  | null
  | bool (value : Bool)
  | numeral (value : Numeral)
  | text (value : Option String)
  | list (items : List Document)
  | object (members : List (Option String × Document))
deriving Inhabited

namespace Document

/-- A container whose closing bracket has not been met; the items so far, last one first. -/
inductive Frame where
  | list (items : List Document)
  | object (members : List (Option String × Document)) (key : Option String)

/-- What may come next: a value or the end of an empty list, a value, a key or the end of an empty
object, a key, a colon, a separator behind a value, or nothing but the end of the text. -/
inductive Expect where
  | firstItem
  | value
  | firstKey
  | key
  | colon
  | separator
  | finish (whole : Document)

structure Machine where
  frames : List Frame
  expect : Expect

/-- A complete value goes into the innermost open container. -/
def Machine.accept (d : Document) : List Frame → Machine
  | [] => ⟨[], .finish d⟩
  | .list items :: rest => ⟨.list (d :: items) :: rest, .separator⟩
  | .object members key :: rest => ⟨.object ((key, d) :: members) none :: rest, .separator⟩

/-- Takes a word where a value may stand. -/
def Machine.value (frames : List Frame) : Word → Option Machine
  | .null => some (accept .null frames)
  | .bool b => some (accept (.bool b) frames)
  | .numeral n => some (accept (.numeral n) frames)
  | .text s => some (accept (.text s) frames)
  | .openList => some ⟨.list [] :: frames, .firstItem⟩
  | .openObject => some ⟨.object [] none :: frames, .firstKey⟩
  | _ => none

def Machine.step (m : Machine) (w : Word) : Option Machine :=
  match m.expect, m.frames, w with
  | .firstItem, .list items :: rest, .closeList => some (accept (.list items.reverse) rest)
  | .firstItem, frames, w => value frames w
  | .value, frames, w => value frames w
  | .firstKey, .object members _ :: rest, .closeObject =>
    some (accept (.object members.reverse) rest)
  | .firstKey, .object members _ :: rest, .text key => some ⟨.object members key :: rest, .colon⟩
  | .key, .object members _ :: rest, .text key => some ⟨.object members key :: rest, .colon⟩
  | .colon, frames, .colon => some ⟨frames, .value⟩
  | .separator, .list items :: rest, .comma => some ⟨.list items :: rest, .value⟩
  | .separator, .list items :: rest, .closeList => some (accept (.list items.reverse) rest)
  | .separator, .object members key :: rest, .comma => some ⟨.object members key :: rest, .key⟩
  | .separator, .object members _ :: rest, .closeObject =>
    some (accept (.object members.reverse) rest)
  | _, _, _ => none

/-- The document that a sequence of words spells. -/
def ofWords (words : List Word) : Option Document :=
  match words.foldlM Machine.step ⟨[], .value⟩ with
  | some ⟨_, .finish d⟩ => some d
  | _ => none

def ofBytes (data : ByteArray) : Option Document :=
  (Lexer.words data.toList).bind ofWords

def ofString (s : String) : Option Document :=
  ofBytes s.toUTF8

/-- The deepest nesting of values that are read. -/
def maxDepth : Nat := 127

def insertSorted (key : String) (value : Json) : List (String × Json) → List (String × Json)
  | [] => [(key, value)]
  | (k, v) :: rest =>
    if key < k then (key, value) :: (k, v) :: rest
    else if key = k then (key, value) :: rest
    else (k, v) :: insertSorted key value rest

mutual

/-- The value of a document that may nest `depth` levels: objects in the order of their keys, of
repeated keys the last one. -/
def value? (depth : Nat) : Document → Option Json
  | .null => some .null
  | .bool b => some (.bool b)
  | .numeral n => n.value?
  | .text s => s.map .text
  | .list items =>
    match depth with
    | 0 => none
    | depth + 1 => (itemValues? depth items).map .list
  | .object members =>
    match depth with
    | 0 => none
    | depth + 1 =>
      (memberValues? depth members).map fun members ↦
        .object (members.foldl (fun acc m ↦ insertSorted m.1 m.2 acc) [])

def itemValues? (depth : Nat) : List Document → Option (List Json)
  | [] => some []
  | item :: rest => do
    let here ← value? depth item
    return here :: (← itemValues? depth rest)

def memberValues? (depth : Nat) : List (Option String × Document) → Option (List (String × Json))
  | [] => some []
  | (key, item) :: rest => do
    let key ← key
    let here ← value? depth item
    return (key, here) :: (← memberValues? depth rest)

end

/-! ## Reading values of a known type -/

def string? : Document → Option String
  | .text s => s
  | _ => none

/-- A text, or null for none. -/
def optionalString? : Document → Option (Option String)
  | .null => some none
  | .text (some s) => some (some s)
  | _ => none

def listOf? {α : Type} (item : Document → Option α) : Document → Option (List α)
  | .list items => items.mapM item
  | _ => none

def strings? : Document → Option (List String) :=
  listOf? string?

/-- The entries of an object; a repeated key keeps its first position and its last value. -/
def mapOf? {α : Type} (item : Document → Option α) : Document → Option (OrderedMap α)
  | .object members => do
    let entries ← members.mapM fun (key, value) ↦ do return (← key, ← item value)
    return OrderedMap.ofList entries
  | _ => none

/-- A whole number between two bounds. -/
def intWithin? (low high : Int) : Document → Option Int
  | .numeral n =>
    match n.value? with
    | some (.int i) => if low ≤ i ∧ i ≤ high then some i else none
    | _ => none
  | _ => none

/-- The fields of a record, by name. -/
abbrev Fields := List (String × Document)

/-- Known members of an object; a known field must not be repeated and every key must be a text. -/
def knownMembers (names : List String) : List (Option String × Document) → Option Fields
  | [] => some []
  | (key, value) :: rest => do
    let key ← key
    let more ← knownMembers names rest
    if key ∈ names then
      if (more.lookup key).isSome then none else return (key, value) :: more
    else return more

/-- The fields of a record, written as an object, or as a list of the first fields in order. -/
def record? (names : List String) : Document → Option Fields
  | .object members => knownMembers names members
  | .list items => if items.length ≤ names.length then some (names.zip items) else none
  | _ => none

/-- A field that has to be given. -/
def required {α : Type} (fields : Fields) (name : String) (read : Document → Option α) :
    Option α :=
  (fields.lookup name).bind read

/-- A field that may be left out. -/
def withDefault {α : Type} (fields : Fields) (name : String) (default : α)
    (read : Document → Option α) : Option α :=
  match fields.lookup name with
  | none => some default
  | some d => read d

end Document

end SheetPackages.Json
