import SheetPackages.Registry.Basic

/-!
# Sessions

A session acts in a world with a cache of indexes, and keeps a state of its own besides.
-/

namespace SheetPackages

abbrev Session (σ α : Type) := ExceptT Fault (StateM ((World × IndexCache) × σ)) α

namespace Session

variable {σ α : Type}

def ofCached (t : Cached α) : Session σ α := fun (w, s) ↦
  let (result, w) := StateT.run (ExceptT.run t) w
  (result, w, s)

def ofAction (t : Action α) : Session σ α :=
  ofCached (Cached.ofAction t)

/-- Changes the state of the session's own. -/
def change (f : σ → σ) : Session σ Unit :=
  modify fun (w, s) ↦ (w, f s)

/-- What a session gives and leaves behind. -/
def runIn (t : Session σ α) (s : (World × IndexCache) × σ) :
    Except Fault α × (World × IndexCache) × σ :=
  Id.run (StateT.run (ExceptT.run t) s)

end Session

end SheetPackages
