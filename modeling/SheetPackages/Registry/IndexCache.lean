import SheetPackages.Index.Basic
import SheetPackages.World.Basic
import SheetPackages.World.Span

/-!
# Cached indexes

Indexes that were fetched are kept for some time, by the address of their registry. An index is
fresh as long as its age is not negative and less than its lifetime. The cache may be kept in a
file, too: changes are written there if that is possible, with the whole seconds of the lifetimes,
and a file that cannot be read counts as an empty cache.
-/

namespace SheetPackages

structure CachedIndex where
  index : Index
  stored : Instant
  lifetime : Span
deriving DecidableEq

structure IndexCache where
  entries : OrderedMap CachedIndex := .empty
  /-- The lifetime of indexes that are put in. -/
  lifetime : Span := .ofSeconds 3600
  path : Option String := none

namespace CachedIndex

def age (c : CachedIndex) (now : Instant) : Int :=
  now.nanoseconds - c.stored.nanoseconds

def isFresh (c : CachedIndex) (now : Instant) : Bool :=
  0 ≤ c.age now && c.age now < c.lifetime.nanoseconds

def toJson (url : String) (c : CachedIndex) : Json :=
  .object [("base_url", .text url), ("stored_at", .text c.stored.text),
    ("ttl_secs", .int c.lifetime.seconds), ("index", c.index.toJson)]

def ofDocument? (doc : Json.Document) : Option (String × CachedIndex) := do
  let fields ← doc.record? ["base_url", "stored_at", "ttl_secs", "index"]
  let url ← Json.Document.required fields "base_url" Json.Document.string?
  let stored ← Json.Document.required fields "stored_at" fun d ↦ d.string?.bind Instant.parse?
  let lifetime ← Json.Document.required fields "ttl_secs"
    (Json.Document.intWithin? (-Decimal.bitLimit 63) (Decimal.bitLimit 63 - 1))
  let index ← Json.Document.required fields "index" Index.ofDocument?
  return (url, ⟨index, stored, .ofSeconds lifetime⟩)

/-- A lifetime must be countable in milliseconds of 64 bits. -/
def checkLifetime (c : CachedIndex) : Except Fault Unit :=
  if (c.lifetime.seconds * 1000).natAbs < Decimal.bitLimit 63 then pure ()
  else throw (.lifetimeOutOfRange c.lifetime.seconds)

end CachedIndex

namespace IndexCache

/-- The entries in the bytes of a cache file, if they are any. -/
def entriesOf? (data : ByteArray) : Option (List (String × CachedIndex)) :=
  (Json.Document.ofBytes data).bind (Json.Document.listOf? CachedIndex.ofDocument?)

/-- The cache in the bytes of its file. -/
def ofBytes (path : String) (data : ByteArray) : Except Fault IndexCache := do
  let entries := (entriesOf? data).getD []
  for entry in entries do
    entry.2.checkLifetime
  return { entries := .ofList entries, path := some path }

/-- The cache that is kept in a file. -/
def load (path : String) : Action IndexCache := do
  match (← Action.files).read path with
  | .ok data => ofBytes path data
  | .error _ => return { path := some path }

def text (c : IndexCache) : String :=
  (Json.list (c.entries.entries.map fun (url, entry) ↦ entry.toJson url)).compact

/-- The files with the cache written to its place, or as much of that as can be done. -/
def saveTo (c : IndexCache) (path : String) (f : Files) : Files :=
  let (result, f) := match Path.parent? path with
    | some directory => f.makeDirectories directory
    | none => (pure (), f)
  match result with
  | .error _ => f
  | .ok () => (f.write path c.text.toUTF8).toOption.getD f

/-- Writes the cache to its file; an obstacle is no fault. -/
def save (c : IndexCache) : Action Unit :=
  match c.path with
  | none => pure ()
  | some path => do Action.setFiles (c.saveTo path (← Action.files))

/-- The fresh index of an address. One that is not fresh is dropped. -/
def lookup (c : IndexCache) (url : String) (now : Instant) : Option Index × IndexCache :=
  match c.entries.get? url with
  | none => (none, c)
  | some entry =>
    if entry.isFresh now then (some entry.index, c)
    else (none, { c with entries := c.entries.erase url })

def isFresh (c : IndexCache) (url : String) (now : Instant) : Bool :=
  (c.entries.get? url).any (·.isFresh now)

def insert (c : IndexCache) (url : String) (index : Index) (now : Instant) : IndexCache :=
  { c with entries := c.entries.insert url ⟨index, now, c.lifetime⟩ }

def erase (c : IndexCache) (url : String) : IndexCache :=
  { c with entries := c.entries.erase url }

def clear (c : IndexCache) : IndexCache :=
  { c with entries := .empty }

/-- The cache without the entries that are not fresh. -/
def fresh (c : IndexCache) (now : Instant) : IndexCache :=
  { c with entries := c.entries.filter fun _ entry ↦ entry.isFresh now }

/-- How many entries there are, and how many of them are fresh. -/
structure Stats where
  all : Nat
  fresh : Nat
deriving DecidableEq

def Stats.stale (s : Stats) : Nat :=
  s.all - s.fresh

def stats (c : IndexCache) (now : Instant) : Stats :=
  ⟨c.entries.size, (c.fresh now).entries.size⟩

end IndexCache

end SheetPackages
