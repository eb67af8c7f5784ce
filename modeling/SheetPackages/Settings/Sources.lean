import SheetPackages.Settings.KeyValues
import SheetPackages.World.Basic

/-!
# Sources of settings

Settings come in layers: what holds without any, one settings file, the environment, and the command
line, each above the one before. Of the two settings files the one in TOML is read if it is there,
and only else the older one.
-/

namespace SheetPackages.Settings

inductive Source where
  | initial
  | toml (path : String)
  | keyValues (path : String)
  | environment
  | commandLine
deriving DecidableEq

def tomlPath (home : String) : String :=
  Path.join (directory home) "config.toml"

def keyValuesPath (home : String) : String :=
  Path.join (directory home) "config"

/-- The text of a file, if there is one; it must be a text. -/
def readText (path : String) : Action (Option String) := do
  let message := s!"Failed to read {path}"
  match ← Action.readIfPresent message path with
  | none => return none
  | some data =>
    match String.fromUTF8? data with
    | some text => return some text
    | none => throw (.ofSystem message)

/-- The layer of the settings file, if there is one. -/
def fileLayer (home : String) : Action (Option (Source × Layer)) := do
  match ← readText (tomlPath home) with
  | some content => return some (.toml (tomlPath home), ← Layer.ofToml (tomlPath home) content)
  | none =>
    match ← readText (keyValuesPath home) with
    | some content =>
      return some (.keyValues (keyValuesPath home), (KeyValues.parse content).layer)
    | none => return none

/-- A layer with its source, unless it holds nothing. -/
def present (source : Source) (l : Layer) : List (Source × Layer) :=
  if l = {} then [] else [(source, l)]

/-- The settings of a user, and the sources that they come from. -/
def load (home : String) (env : Environment) (choices : Layer) :
    Action (Settings × List Source) := do
  let layers := (← fileLayer home).toList ++ present .environment env.layer ++
    present .commandLine choices
  let settings := layers.foldl (fun s layer ↦ layer.2.apply s) (initial home)
  settings.validate
  return (settings, .initial :: layers.map Prod.fst)

end SheetPackages.Settings
