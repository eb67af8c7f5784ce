import SheetPackages.Index.Basic
import SheetPackages.Package
import SheetPackages.Version.Candidates

/-!
# Candidates and requirements from an index

A provider answers the two questions of the resolver: which candidates of a package satisfy some
requirements, and what a candidate requires in turn. Only names on its list have candidates. The
same questions can be asked with a memo, which keeps the answers by package name and version.
-/

namespace SheetPackages

/-- A dependency whose specifier has been read. -/
structure Requirement where
  dependency : Dependency
  range : Version.Range
deriving DecidableEq

namespace Requirement

def ofDependency (d : Dependency) : Except Fault Requirement :=
  match d.range with
  | .ok range => pure ⟨d, range⟩
  | .error flaw => throw (.invalidRequirement d.text flaw.message)

/-- The package that the requirement is about. -/
def name (r : Requirement) : String :=
  r.dependency.name

def text (r : Requirement) : String :=
  r.dependency.text

def isSatisfiedBy (r : Requirement) (p : Package) : Bool :=
  r.name == p.name && r.range.accepts p.version

end Requirement

structure Provider where
  /-- Every name that may have candidates. -/
  names : List String
  /-- The candidates of a package that satisfy all requirements, best first. -/
  candidates : String → List Requirement → List Package
  /-- What a candidate requires. -/
  requires : Package → Except Fault (List Dependency)
  known : ∀ name requirements, candidates name requirements ≠ [] → name ∈ names

/-- The ranges of the requirements on `name` that constrain the version. -/
def rangesFor (name : String) (requirements : List Requirement) : List Version.Range :=
  (requirements.filter fun r ↦ r.name == name && !r.range.isAny).map (·.range)

def candidatesIn (pool : Version.Pool) (name : String) (requirements : List Requirement) :
    List Package :=
  (pool.candidates (rangesFor name requirements)).map fun version ↦ { name, version }

namespace Index

/-- One version of each precedence, for every package. -/
def pools (i : Index) : OrderedMap Version.Pool :=
  i.packages.map fun _ listing ↦ .ofList listing.releases

/-- The requirement texts of a candidate. -/
def declared (i : Index) (p : Package) : Except Fault (List String) :=
  (i.release p.name p.version).map (·.dependencies)

/-- The provider over an index. -/
def provider (i : Index) : Provider :=
  let pools := i.pools
  { names := pools.keys
    candidates := fun name requirements ↦
      match pools.get? name with
      | some pool => candidatesIn pool name requirements
      | none => []
    requires := fun p ↦ do Dependency.readAll (← i.declared p)
    known := by
      intro name requirements h
      cases hp : pools.get? name with
      | none => simp [hp] at h
      | some pool => exact OrderedMap.mem_keys_of_get? hp }

end Index

/-! ## With a memo -/

/-- Answers kept by a provider that remembers. An answer about a candidate is found again under a
version that compares equal and has the same place in a table of versions. -/
structure Memo where
  pools : OrderedMap Version.Pool := .empty
  declared : List ((String × Version) × List String) := []

namespace Memo

def pool (i : Index) (name : String) (m : Memo) : Version.Pool × Memo :=
  match m.pools.get? name with
  | some pool => (pool, m)
  | none =>
    let pool := Version.Pool.ofList (i.versions name)
    (pool, { m with pools := m.pools.insert name pool })

/-- The candidates of a package, with the pool of its versions made once. -/
def candidates (i : Index) (name : String) (requirements : List Requirement) (m : Memo) :
    List Package × Memo :=
  let (pool, m) := m.pool i name
  (candidatesIn pool name requirements, m)

def stored? (m : Memo) (p : Package) : Option (List String) :=
  (m.declared.find? fun entry ↦ entry.1.1 == p.name && entry.1.2.same p.version &&
    entry.1.2.tableKey == p.version.tableKey).map Prod.snd

/-- The requirement texts of a candidate, looked up in the index once. -/
def declaredBy (i : Index) (p : Package) (m : Memo) : Except Fault (List String) × Memo :=
  match m.stored? p with
  | some texts => (pure texts, m)
  | none =>
    match i.declared p with
    | .ok texts => (pure texts, { m with declared := ((p.name, p.version), texts) :: m.declared })
    | .error fault => (throw fault, m)

/-- What a candidate requires, its requirement texts looked up in the index once. -/
def requires (i : Index) (p : Package) (m : Memo) : Except Fault (List Dependency) × Memo :=
  let (texts, m) := m.declaredBy i p
  (texts.bind Dependency.readAll, m)

end Memo

end SheetPackages
