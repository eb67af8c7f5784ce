import SheetPackages.Path
import SheetPackages.Json.Printer

/-!
# Settings

Where packages come from, where they are kept, which workbook is meant, how long the resolver may
search and how patient requests to a registry are.
-/

namespace SheetPackages

structure Patience where
  timeoutSeconds : Nat := 30
  /-- How often a failed request is made again. -/
  retries : Nat := 3
deriving DecidableEq

structure Settings where
  /-- An address, or a directory of this machine. -/
  registry : String := "https://raw.githubusercontent.com/formulary-registry/registry/main"
  cacheDirectory : String
  workbook : Option String := none
  maxRounds : Nat := 200000
  patience : Patience := {}
deriving DecidableEq

namespace Settings

/-- The directory under a home directory that holds the settings files. -/
def directory (home : String) : String :=
  Path.join home ".formulary"

/-- What holds for a user without any settings. -/
def initial (home : String) : Settings where
  cacheDirectory := Path.join (directory home) "cache"

/-- The file that keeps indexes of registries. -/
def indexCachePath (s : Settings) : String :=
  Path.join s.cacheDirectory "index-cache.json"

/-- Refuses values that could only fail later. -/
def validate (s : Settings) : Except Fault Unit :=
  if Text.trimmed s.registry = "" then
    throw (.invalidSetting "registry_url" "must not be empty")
  else if s.maxRounds = 0 then
    throw (.invalidSetting "resolver.max_rounds" "must be greater than zero")
  else if s.patience.timeoutSeconds = 0 then
    throw (.invalidSetting "network.timeout_secs" "must be greater than zero")
  else pure ()

def toJson (s : Settings) : Json :=
  .object [("registry_url", .text s.registry), ("cache_dir", .text s.cacheDirectory),
    ("workbook", .ofText? s.workbook),
    ("resolver", .object [("max_rounds", .int s.maxRounds)]),
    ("network", .object [("timeout_secs", .int s.patience.timeoutSeconds),
      ("max_retries", .int s.patience.retries)])]

end Settings

end SheetPackages
