import SheetPackages.Settings.Basic
import SheetPackages.Toml.Document

/-!
# Layers of settings

A layer holds some of the settings and leaves the others to the layers below it. A settings file in
TOML is a layer: it must not hold anything else, and a layer is written as such a file.
-/

namespace SheetPackages.Settings

structure ResolverLayer where
  maxRounds : Option Nat := none
deriving DecidableEq

structure NetworkLayer where
  timeoutSeconds : Option Nat := none
  retries : Option Nat := none
deriving DecidableEq

structure Layer where
  registry : Option String := none
  cacheDirectory : Option String := none
  workbook : Option String := none
  resolver : Option ResolverLayer := none
  network : Option NetworkLayer := none
deriving DecidableEq

namespace Layer

/-- The settings with everything that the layer holds in place of what they had. -/
def apply (l : Layer) (s : Settings) : Settings where
  registry := l.registry.getD s.registry
  cacheDirectory := l.cacheDirectory.getD s.cacheDirectory
  workbook := l.workbook.or s.workbook
  maxRounds := (l.resolver.bind (·.maxRounds)).getD s.maxRounds
  patience := {
    timeoutSeconds := (l.network.bind (·.timeoutSeconds)).getD s.patience.timeoutSeconds
    retries := (l.network.bind (·.retries)).getD s.patience.retries }

/-! ## Settings files -/

/-- Reads a field if it is there. -/
def field? {α : Type} (read : Toml.Value → Option α) : Option Toml.Value → Option (Option α)
  | none => some none
  | some v => (read v).map some

def resolver? (v : Toml.Value) : Option ResolverLayer :=
  match v.fields? ["max_rounds"] with
  | some [rounds] => do return ⟨← field? (Toml.Value.natUpTo? (Decimal.bitLimit 64 - 1)) rounds⟩
  | _ => none

def network? (v : Toml.Value) : Option NetworkLayer :=
  match v.fields? ["timeout_secs", "max_retries"] with
  | some [timeout, retries] => do
    return ⟨← field? (Toml.Value.natUpTo? (Decimal.bitLimit 64 - 1)) timeout,
      ← field? (Toml.Value.natUpTo? (Decimal.bitLimit 32 - 1)) retries⟩
  | _ => none

def ofValue? (v : Toml.Value) : Option Layer :=
  match v.fields? ["registry_url", "cache_dir", "workbook", "resolver", "network"] with
  | some [registry, cacheDirectory, workbook, resolver, network] => do
    return {
      registry := ← field? Toml.Value.text? registry
      cacheDirectory := ← field? Toml.Value.text? cacheDirectory
      workbook := ← field? Toml.Value.text? workbook
      resolver := ← field? resolver? resolver
      network := ← field? network? network }
  | _ => none

/-- The layer in a settings file; `path` is named when it is none. -/
def ofToml (path content : String) : Except Fault Layer :=
  match (Toml.parse content).bind ofValue? with
  | some l => pure l
  | none => throw (.malformedToml path Fault.unexplained)

def textLine (key : String) (value : Option String) : List String :=
  match value with
  | some s => [key ++ " = " ++ String.ofList (Toml.written s.toList) ++ "\n"]
  | none => []

def numberLine (key : String) (value : Option Nat) : List String :=
  match value with
  | some n => [key ++ " = " ++ Decimal.text n ++ "\n"]
  | none => []

/-- The lines of a table under its header. -/
def tableText (name : String) (lines : List String) : String :=
  String.join (("[" ++ name ++ "]\n") :: lines)

/-- The keys and the tables of a layer as a settings file, with empty lines between the tables. -/
def toToml (l : Layer) : String :=
  let top := String.join (textLine "registry_url" l.registry ++
    textLine "cache_dir" l.cacheDirectory ++ textLine "workbook" l.workbook)
  let resolver := l.resolver.map fun r ↦
    tableText "resolver" (numberLine "max_rounds" r.maxRounds)
  let network := l.network.map fun n ↦
    tableText "network"
      (numberLine "timeout_secs" n.timeoutSeconds ++ numberLine "max_retries" n.retries)
  "\n".intercalate ([if top = "" then none else some top, resolver, network].filterMap id)

/-! ## As JSON -/

def member (key : String) : Option Json → List (String × Json)
  | some v => [(key, v)]
  | none => []

def toJson (l : Layer) : Json :=
  .object (member "registry_url" (l.registry.map .text) ++
    member "cache_dir" (l.cacheDirectory.map .text) ++
    member "workbook" (l.workbook.map .text) ++
    member "resolver" (l.resolver.map fun r ↦
      .object (member "max_rounds" (r.maxRounds.map fun n ↦ .int n))) ++
    member "network" (l.network.map fun n ↦
      .object (member "timeout_secs" (n.timeoutSeconds.map fun n ↦ .int n) ++
        member "max_retries" (n.retries.map fun n ↦ .int n))))

end Layer

end SheetPackages.Settings
