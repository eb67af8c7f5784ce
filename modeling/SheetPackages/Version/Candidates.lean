import SheetPackages.Version.Range

/-!
# Candidate versions

A pool holds one version for each precedence, in ascending order. Candidates for a list of ranges
are the accepted versions of the pool, newest first; prereleases are offered only when no stable
version is accepted.
-/

namespace SheetPackages.Version

/-- Versions in ascending precedence, no two of the same. -/
structure Pool where
  ascending : List Version := []

namespace Pool

/-- Places a version behind all that come before it; one of the same precedence is replaced. -/
def place (v : Version) : List Version → List Version
  | [] => [v]
  | w :: rest =>
    match v.precedence w with
    | .lt => v :: w :: rest
    | .eq => v :: rest
    | .gt => w :: place v rest

/-- Of versions with the same precedence the last one given stays. -/
def ofList (versions : List Version) : Pool :=
  ⟨versions.foldl (fun acc v ↦ place v acc) []⟩

def size (p : Pool) : Nat :=
  p.ascending.length

def isEmpty (p : Pool) : Bool :=
  p.ascending.isEmpty

/-- The versions that every range accepts, newest first. -/
def accepted (p : Pool) (ranges : List Range) : List Version :=
  p.ascending.reverse.filter fun v ↦ ranges.all (·.accepts v)

/-- The stable ones among the accepted versions if there are any, else all of them. -/
def candidates (p : Pool) (ranges : List Range) : List Version :=
  let all := p.accepted ranges
  if all.any (!·.isPrerelease) then all.filter (!·.isPrerelease) else all

end Pool

end SheetPackages.Version
