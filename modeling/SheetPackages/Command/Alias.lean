import SheetPackages.Fault
import SheetPackages.Function
import SheetPackages.Formula.Rename

/-!
# Aliases

Aliases rename functions of a package. They are given as texts `PKG:OLD=NEW`, or asked for when
functions of a package collide: each conflicting name gets one alias, and the operation is tried
again with the extended maps. A conflicting name that is itself an alias loses that alias to the
new one.
-/

namespace SheetPackages

/-- For every package, its functions with their aliases. -/
abbrev RenameMaps := OrderedMap Formula.RenameMap

namespace Alias

/-- Whether a text can be the name of a function: a letter or `_`, then letters, digits, `_` and
`.`, and not a reserved name. -/
def isValid (name : String) : Bool :=
  match name.toList with
  | [] => false
  | c :: rest =>
    (Text.isLetter c || c == '_') &&
      rest.all (fun d ↦ Text.isAlphanumeric d || d == '_' || d == '.') &&
      !Function.isReserved name

/-- One requested alias. -/
structure Spec where
  package : String
  old : String
  new : String
deriving DecidableEq

def Spec.parse (s : String) : Except Fault Spec :=
  let invalid (reason : String) : Fault := .invalidSetting "rename" s!"'{s}' {reason}"
  let shape := invalid "must look like PKG:OLD=NEW"
  match Text.cut? ':' s.toList with
  | none => throw shape
  | some (package, mapping) =>
    match Text.cut? '=' mapping with
    | none => throw shape
    | some (old, new) =>
      let package := String.ofList (Text.trim package)
      let old := String.ofList (Text.trim old)
      let new := String.ofList (Text.trim new)
      if package.isEmpty ∨ old.isEmpty then throw shape
      else if !isValid new then throw (invalid "has an invalid new function name")
      else pure ⟨package, old, new⟩

/-- The map of a package, empty when it has none. -/
def mapOf (maps : RenameMaps) (package : String) : Formula.RenameMap :=
  (maps.get? package).getD .empty

def addSpec (maps : RenameMaps) (spec : Spec) : RenameMaps :=
  maps.insert spec.package ((mapOf maps spec.package).insert spec.old spec.new)

/-- The requested aliases by package; a later alias of the same function wins. -/
def readMaps (specs : List String) : Except Fault RenameMaps := do
  return (← specs.mapM Spec.parse).foldl addSpec .empty

/-- The function whose name a conflicting name is: the one that has it as its alias, else the one
with that name. -/
def bearer (map : Formula.RenameMap) (conflict : String) : String :=
  match map.entries.find? (·.2 == conflict) with
  | some (name, _) => name
  | none => conflict

/-- Asks for aliases of conflicting names one by one. -/
structure Source (σ : Type) where
  ask : (package function : String) → σ → Except Fault (Option String) × σ

/-- Never offers an alias. -/
def silent {σ : Type} : Source σ :=
  ⟨fun _ _ s ↦ (pure none, s)⟩

/-- Asks for an alias for each conflict in order and enters the answers. The flag tells whether
every conflict got one. -/
def enter {σ : Type} (source : Source σ) (package : String) :
    List String → Formula.RenameMap → σ → Except Fault (Bool × Formula.RenameMap) × σ
  | [], map, s => (pure (true, map), s)
  | conflict :: rest, map, s =>
    match source.ask package conflict s with
    | (.error fault, s) => (throw fault, s)
    | (.ok none, s) => (pure (false, map), s)
    | (.ok (some new), s) => enter source package rest (map.insert (bearer map conflict) new) s

/-- What a run of attempts ends with: the result of the last attempt and the final maps. -/
structure Ending (α : Type) where
  result : Except Fault α
  maps : RenameMaps

/-- Makes at most `more + 1` attempts: after a collision each conflicting name is asked for, and
the attempt is repeated unless no answer comes. -/
def retry {α σ : Type} (source : Source σ) (attempt : RenameMaps → σ → Except Fault α × σ) :
    Nat → RenameMaps → σ → Ending α × σ
  | more, maps, s =>
    match attempt maps s with
    | (.error (.functionCollision package conflicts), s) =>
      match enter source package conflicts (mapOf maps package) s with
      | (.error fault, s) => (⟨throw fault, maps⟩, s)
      | (.ok (complete, map), s) =>
        let maps := maps.insert package map
        match complete, more with
        | true, more + 1 => retry source attempt more maps s
        | _, _ => (⟨throw (.functionCollision package conflicts), maps⟩, s)
    | (result, s) => (⟨result, maps⟩, s)

end Alias

end SheetPackages
