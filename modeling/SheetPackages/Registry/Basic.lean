import SheetPackages.Registry.Address
import SheetPackages.Registry.IndexCache
import SheetPackages.Registry.Status

/-!
# Registries

A registry offers an index of packages and their archives. It is a directory, or a site on the web;
both have the same layout, with the index at the top and each archive at the path that the index
gives, else at a conventional one. A site is asked again while answers do not come through, and its
index is kept in a cache.
-/

namespace SheetPackages

structure Site where
  /-- The address, without `/` at its end. -/
  base : String
  /-- How often a failed request is made again. -/
  retries : Nat := 3

inductive Registry where
  | directory (root : String)
  | site (s : Site)

/-- An action that uses the cache of indexes. -/
abbrev Cached (α : Type) := ExceptT Fault (StateM (World × IndexCache)) α

namespace Cached

def ofAction {α : Type} (t : Action α) : Cached α := fun (w, c) ↦
  let (result, w) := t.runIn w
  (result, w, c)

def cache : Cached IndexCache :=
  return (← get).2

def setCache (c : IndexCache) : Cached Unit :=
  modify fun (w, _) ↦ (w, c)

def now : Cached Instant :=
  return (← get).1.now

/-- Changes the cache and writes it to its file. -/
def updateCache (f : IndexCache → IndexCache) : Cached Unit := do
  let c := f (← cache)
  setCache c
  ofAction c.save

/-- The fresh index of an address. One that is not fresh is dropped, but stays in the file until the
next change is written. -/
def lookup (url : String) : Cached (Option Index) := do
  let (found, c) := (← cache).lookup url (← now)
  setCache c
  return found

def insert (url : String) (index : Index) : Cached Unit := do
  let now ← now
  updateCache (·.insert url index now)

/-- Drops the index of an address, and tells whether there was one. -/
def drop (url : String) : Cached Bool := do
  let known := (← cache).entries.contains url
  if known then updateCache (·.erase url)
  return known

/-- Drops the indexes that are not fresh, and tells how many there were. -/
def dropStale : Cached Nat := do
  let now ← now
  let stale := ((← cache).stats now).stale
  if stale > 0 then updateCache (·.fresh now)
  return stale

def clear : Cached Unit :=
  updateCache IndexCache.clear

end Cached

namespace Registry

/-- The text without the slashes at its end. -/
def withoutSlashes (s : String) : String :=
  String.ofList (s.toList.reverse.dropWhile (· = '/')).reverse

/-- Whether `://` occurs in a text. -/
def hasAuthority : List Char → Bool
  | [] => false
  | c :: rest => ['/', '/'].isPrefixOf rest && c = ':' || hasAuthority rest

/-- The site with an address. -/
def siteAt (address : String) (retries : Nat) : Except Fault Site :=
  if Address.isValid address then pure ⟨withoutSlashes address, retries⟩
  else
    throw (.invalidSetting "registry_url" s!"'{address}' is not a valid URL: {Fault.unexplained}")

/-- The registry that a text names: a directory by its path or by an address of files, a site by any
other address. -/
def named (text : String) (retries : Nat) : Except Fault Registry :=
  match Text.behind? "file://" text with
  | some root => pure (.directory root)
  | none =>
    if hasAuthority text.toList then (siteAt text retries).map .site else pure (.directory text)

/-- Where an archive is when the index does not say it. -/
def conventionalPath (name version : String) : String :=
  s!"packages/{name}/{version}/{name}@{version}.gspkg"

/-- The path of an archive by the index, else the conventional one. -/
def archivePath (index : Index) (name version : String) : String :=
  (((index.package? name).bind (·.versions.get? version)).bind (·.path)).getD
    (conventionalPath name version)

/-! ## Directories -/

def readIndexIn (root : String) : Action Index := do
  let path := Path.join root "index.json"
  Index.ofBytes (← Action.read s!"Failed to read {path}" path)

/-- The file at a path below the root, if there is one. -/
def readBelow (root path : String) : Action (Option ByteArray) := do
  let path ← Path.safeJoin root path
  Action.readIfPresent s!"Failed to read {path}" path

/-! ## Sites -/

/-- One request; nothing is found where the status is 404. -/
def request (address : String) : Action (Option ByteArray) := do
  let (reply, web) := (← get).web.ask address
  modify fun w ↦ { w with web }
  match reply with
  | .silence =>
    throw (.network s!"Failed to fetch {address}: {Fault.unexplained}" (some Fault.unexplained))
  | .broken status =>
    if status = 404 then return none
    else if isSuccess status then
      throw (.network s!"Failed to read {address}: {Fault.unexplained}" (some Fault.unexplained))
    else throw (.network s!"Registry returned status {statusText status} for {address}" none)
  | .full status body =>
    if status = 404 then return none
    else if isSuccess status then return some body
    else throw (.network s!"Registry returned status {statusText status} for {address}" none)

def isNetworkFault : Fault → Bool
  | .network _ _ => true
  | _ => false

/-- Tries an action again after each network fault, `retries` times at most. -/
def retrying {α : Type} (t : Action α) : Nat → Action α
  | 0 => t
  | retries + 1 =>
    tryCatch t fun fault ↦ if isNetworkFault fault then retrying t retries else throw fault

def addressOf (s : Site) (path : String) : String :=
  s.base ++ "/" ++ String.ofList (path.toList.dropWhile (· = '/'))

def get? (s : Site) (path : String) : Action (Option ByteArray) :=
  retrying (request (addressOf s path)) s.retries

def fetchIndex (s : Site) : Cached Index := do
  let address := addressOf s "index.json"
  match ← Cached.ofAction (get? s "index.json") with
  | none => throw (.network s!"Registry index not found at {address}" none)
  | some data =>
    let index ← Index.ofBytes data
    Cached.insert s.base index
    return index

/-! ## Both -/

/-- The index, from the cache if it is fresh there. -/
def index : Registry → Cached Index
  | .directory root => Cached.ofAction (readIndexIn root)
  | .site s => do
    match ← Cached.lookup s.base with
    | some index => return index
    | none => fetchIndex s

/-- The index as it is at the registry now. -/
def refresh : Registry → Cached Index
  | .directory root => Cached.ofAction (readIndexIn root)
  | .site s => do
    let _ ← Cached.drop s.base
    fetchIndex s

/-- The bytes at a path of the registry. -/
def read : Registry → String → Action (Option ByteArray)
  | .directory root, path => readBelow root path
  | .site s, path => get? s path

/-- The archive of a version, at the path that the index gives or else at the conventional one. -/
def archive (r : Registry) (name version : String) : Cached ByteArray := do
  let primary := archivePath (← r.index) name version
  let conventional := conventionalPath name version
  let found ← match ← Cached.ofAction (r.read primary) with
    | some data => pure (some data)
    | none =>
      if primary = conventional then pure none else Cached.ofAction (r.read conventional)
  match found with
  | some data => return data
  | none => throw (.versionNotFound name version)

end Registry

end SheetPackages
