import SheetPackages.Archive.Basic
import SheetPackages.Archive.Store
import SheetPackages.Registry.Basic

/-!
# What planning draws on

Planning needs the index of the registry, the archives of versions and archive files. Where they
come from is left open; a program has them from its registry, with archives kept in a store once
they have been fetched.
-/

namespace SheetPackages

structure Supply (m : Type → Type) where
  /-- The index of the registry. -/
  index : ExceptT Fault m Index
  /-- The bytes of the archive of a version. -/
  archive (name version : String) : ExceptT Fault m ByteArray
  /-- The absolute path of an archive file that is there. -/
  locate (path : String) : ExceptT Fault m String
  /-- What is in an archive file. -/
  file (path : String) : ExceptT Fault m Archive

namespace Supply

/-- The archive of a version from the store, else from the registry by way of the store. -/
def stored (r : Registry) (s : Archive.Store) (name version : String) : Cached ByteArray := do
  match ← Cached.ofAction (s.get? name version) with
  | some data => return data
  | none =>
    let data ← r.archive name version
    let _ ← Cached.ofAction (s.put name version data)
    return data

def needFile (path : String) : Action Unit := do
  if !(← Action.files).isFile path then throw (.archiveNotFound path)

def located (path : String) : Action String := do
  needFile path
  Action.orFault s!"Failed to resolve {path}" ((← Action.files).canonical path)

def unpacked (path : String) : Action Archive := do
  needFile path
  Archive.ofFile path

def ofRegistry (r : Registry) (s : Archive.Store) : Supply (StateM (World × IndexCache)) where
  index := r.index
  archive := stored r s
  locate path := Cached.ofAction (located path)
  file path := Cached.ofAction (unpacked path)

end Supply

end SheetPackages
