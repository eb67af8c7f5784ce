/-!
# TOML values

What a settings file can hold. Booleans, binary numbers and dates have no use in settings, so
nothing but their presence is kept. A table remembers whether it was made by dotted keys, for only
such a table may be extended by another dotted key.
-/

namespace SheetPackages.Toml

inductive Value where
  | text (value : String)
  | integer (value : Int)
  | other
  | list (items : List Value)
  | table (dotted : Bool) (entries : List (String × Value))
deriving Inhabited

/-- The entries of a table, in written order. -/
abbrev Entries := List (String × Value)

/-- The entries with the value of a key that is present replaced. -/
def replace (key : String) (value : Value) (entries : Entries) : Entries :=
  entries.map fun entry ↦ if entry.1 = key then (key, value) else entry

/-- Enters a value under a dotted key. A key is never given twice, and every part of it but the last
one names a table that dotted keys made. -/
def enter (value : Value) : List String → Entries → Option Entries
  | [], _ => none
  | [key], entries =>
    if (entries.lookup key).isSome then none else some (entries ++ [(key, value)])
  | key :: rest, entries =>
    match entries.lookup key with
    | none => (enter value rest []).map fun inner ↦ entries ++ [(key, .table true inner)]
    | some (.table true inner) =>
      (enter value rest inner).map fun inner ↦ replace key (.table true inner) entries
    | some _ => none

/-- Enters values under dotted keys one after the other. -/
def enterAll (entries : Entries) : List (List String × Value) → Option Entries
  | [] => some entries
  | (key, value) :: rest => (enter value key entries).bind fun entries ↦ enterAll entries rest

/-- The values of named fields: of a table by their names, all of which must be known, of a list by
position. -/
def Value.fields? (names : List String) : Value → Option (List (Option Value))
  | .table _ entries =>
    if entries.all (·.1 ∈ names) then some (names.map fun name ↦ entries.lookup name) else none
  | .list items => some ((List.range names.length).map fun i ↦ items[i]?)
  | _ => none

def Value.text? : Value → Option String
  | .text s => some s
  | _ => none

/-- A whole number from zero up to `high`. -/
def Value.natUpTo? (high : Nat) : Value → Option Nat
  | .integer n => if 0 ≤ n ∧ n.toNat ≤ high then some n.toNat else none
  | _ => none

end SheetPackages.Toml
