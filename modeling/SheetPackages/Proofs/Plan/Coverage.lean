import SheetPackages.Proofs.Lockfile.Closure
import SheetPackages.Proofs.Plan.Fitting

/-!
# Installed lockfiles

When archives declare what the index lists for them, the lockfile of an installation without archive
files is the solution that was found, now as the lockfile itself reads it. It is closed, and it has
exactly the packages that the requirements of the project reach, so that a later removal keeps what
is needed and nothing else. Blanks around requirements in the index do not matter, though a lockfile
reads names by a rule of its own. Which versions are locked is not described here.
-/

namespace SheetPackages

open Relation (ReflTransGen)
open Resolution (Leads Solves)

/-! ## Solutions in lockfiles -/

namespace Lockfile

/-- The lockfile has the packages and no others, each with the requirements that the index lists for
it. -/
structure Covers (l : Lockfile) (i : Index) (packages : List Package) : Prop where
  contains : ∀ name, l.contains name = true ↔ ∃ q ∈ packages, q.name = name
  needs : ∀ q ∈ packages, ∀ release, i.release q.name q.version = .ok release →
    l.needs q.name = release.dependencies.map fun text ↦ Locked.nameOf (Text.trimmed text)

namespace Covers

variable {l : Lockfile} {i : Index} {ds : List Dependency} {packages : List Package}

theorem contains_of_met (h : l.Covers i packages) {d : Dependency}
    (hmet : Resolution.Met packages d) : l.contains d.name = true := by
  obtain ⟨_, _, q, hq, hname, _⟩ := hmet
  exact (h.contains d.name).mpr ⟨q, hq, hname⟩

/-- What a chosen package requires is met by a chosen package. -/
theorem closed (h : l.Covers i packages) (hsolves : Solves i ds packages) : l.Closed := by
  intro name entry hentry needed hneeded
  have hlocked : l.contains name = true := by
    rw [Lockfile.contains, OrderedMap.contains, ← get?, hentry]
    rfl
  obtain ⟨q, hq, rfl⟩ := (h.contains name).mp hlocked
  obtain ⟨release, hrelease, hread⟩ := hsolves.declared_met q hq
  have hneeds : l.needs q.name = entry.dependencyNames := by rw [Lockfile.needs, hentry]
  rw [← hneeds, h.needs q hq release hrelease] at hneeded
  obtain ⟨text, htext, rfl⟩ := List.mem_map.mp hneeded
  obtain ⟨d, hparse, hmet⟩ := hread text htext
  rw [Locked.nameOf_trimmed hparse]
  exact h.contains_of_met hmet

theorem reaches (h : l.Covers i packages) {a b : String}
    (hleads : ReflTransGen (Leads i packages) a b) : l.Reaches a b := by
  have hstep : Leads i packages ≤ fun a b ↦ b ∈ l.needs a := by
    rintro _ _ ⟨q, hq, rfl, d, ⟨release, hrelease, text, htext, hparse⟩, rfl⟩
    rw [h.needs q hq release hrelease, ← Locked.nameOf_trimmed hparse]
    exact List.mem_map.mpr ⟨text, htext, rfl⟩
  exact ReflTransGen.mono hstep a b hleads

/-- Chosen packages are reached from the roots, and what these reach is chosen. -/
theorem contains_iff_mem_closure (h : l.Covers i packages) (hsolves : Solves i ds packages)
    (name : String) :
    l.contains name = true ↔ name ∈ l.closure (ds.map Dependency.name) := by
  rw [mem_closure_iff]
  constructor
  · intro hlocked
    obtain ⟨q, hq, rfl⟩ := (h.contains name).mp hlocked
    obtain ⟨d, hd, hreachable⟩ := hsolves.reachable q hq
    exact ⟨d.name, List.mem_map_of_mem hd, h.reaches hreachable⟩
  · rintro ⟨_, hroot, hreaches⟩
    obtain ⟨d, hd, rfl⟩ := List.mem_map.mp hroot
    exact (h.closed hsolves).contains_of_reaches (h.contains_of_met (hsolves.roots_met d hd)) hreaches

end Covers

end Lockfile

/-! ## Lockfiles of batches -/

variable {σ : Type} {supply : Supply (StateM σ)} {start : σ} {s : Workbook.State}
  {renames : RenameMaps}

/-- Archives that are fetched for a version declare what the index lists under it, without blanks
around the texts. -/
def Supply.Mirrors (supply : Supply (StateM σ)) (start : σ) (l : Lockfile)
    (name version : String) : Prop :=
  ∀ i listing release a, supply.Yields start supply.index i → i.package? name = some listing →
    listing.versions.get? version = some release → Batch.Fetches supply start l name version a →
      a.project.dependencies = release.dependencies.map Text.trimmed

namespace Batch

/-- A chosen version whose archive mirrors the index is locked with what the index lists for it. -/
theorem needs_of_mirrors {l previous : Lockfile} {i : Index} {q : Package} {u : Unpacked}
    {functions : List String} {release : Release} (hindex : supply.Yields start supply.index i)
    (hrelease : i.release q.name q.version = .ok release)
    (hunpacked : Unpacks (Fetches supply start previous) (Selected.ofPackage i q) u)
    (hlocked : l.get? q.name = some { u.locked with functions })
    (hmirrors : supply.Mirrors start previous q.name u.version) :
    l.needs q.name = release.dependencies.map fun text ↦ Locked.nameOf (Text.trimmed text) := by
  obtain ⟨listing, key, hlisting, hkey, hget⟩ := Index.exists_listing_of_release hrelease
  rw [Selected.ofPackage, hkey, Option.getD_some] at hunpacked
  cases hunpacked with
  | @registry _ _ a hfetched =>
  have hdependencies := hmirrors i listing release a hindex hlisting hget hfetched
  rw [Lockfile.needs, hlocked]
  change a.project.dependencies.map Locked.nameOf = _
  rw [hdependencies, List.map_map]
  rfl

/-- A checked batch that was unpacked from a solution is locked as the solution. -/
theorem covers_lockfile {i : Index} {ds : List Dependency} {packages : List Package}
    {batch checked : List Unpacked} (hsolves : Solves i ds packages)
    (hindex : packages = [] ∨ supply.Yields start supply.index i)
    (hunpacks : List.Forall₂ (Unpacks (Fetches supply start s.lockfile))
      (packages.map (Selected.ofPackage i)) batch)
    (hchecks : check s renames batch = .ok checked)
    (hmirrors : ∀ entry ∈ (lockfile (checked.map (withAliases renames))).packages.entries,
      supply.Mirrors start s.lockfile entry.1 entry.2.version) :
    (lockfile (checked.map (withAliases renames))).Covers i packages := by
  have hnames : batch.map Unpacked.name = packages.map Package.name := by
    rw [Unpacks.map_name hunpacks, List.map_map]
    rfl
  constructor
  case contains =>
    intro name
    rw [contains_lockfile, map_name_of_check hchecks, hnames, List.mem_map]
  case needs =>
    intro q hq release hrelease
    have hi : supply.Yields start supply.index i := hindex.resolve_left (List.ne_nil_of_mem hq)
    obtain ⟨u, hu, hunpacked⟩ := exists_of_mem_left hunpacks (List.mem_map_of_mem hq)
    obtain ⟨functions, hlocked⟩ := exists_locked_of_check (hnames ▸ hsolves.nodup) hchecks hu
    rw [hunpacked.name_eq] at hlocked
    exact needs_of_mirrors hi hrelease hunpacked hlocked
      (hmirrors _ (OrderedMap.get?_eq_some_iff.mp hlocked))

end Batch

/-! ## Lockfiles of installations -/

/-- The lockfile of an installation without archive files is closed, and it has exactly the packages
that the requirements of the project reach. -/
theorem Plan.closed_of_install {limit : Nat} {targets : List Target} {p : Plan}
    (h : ((install supply limit s targets renames).run.run start).1 = .ok p)
    (hregistry : ∀ ds, p.project.requirements = .ok ds → ∀ d ∈ ds, d.isLocal = false)
    (hmirrors : ∀ entry ∈ p.lockfile.packages.entries,
      supply.Mirrors start s.lockfile entry.1 entry.2.version) :
    ∃ ds, p.project.requirements = .ok ds ∧ p.lockfile.Closed ∧
      ∀ name, p.lockfile.contains name = true ↔
        name ∈ p.lockfile.closure (ds.map Dependency.name) := by
  obtain ⟨project, selection, _, hselection, hmade⟩ :=
    (install_spec limit s targets renames).run h
  obtain ⟨batch, checked, hunpacks, hchecks, rfl⟩ :=
    (Batch.planOf_spec s project selection renames).of_yields hmade
  obtain ⟨ds, hds, _⟩ := (Selected.ofProject_spec limit project []).of_yields hselection
  obtain ⟨i, packages, hindex, hsolves, rfl⟩ :=
    (Selected.ofProject_of_registry limit hds (hregistry ds hds)).of_yields hselection
  have hcovers := Batch.covers_lockfile hsolves hindex hunpacks hchecks hmirrors
  exact ⟨ds, hds, hcovers.closed hsolves, hcovers.contains_iff_mem_closure hsolves⟩

/-! ## An installed dependency -/

/-- What two supplies of equal draws list and archive can be compared by reading the archive once. -/
theorem Supply.mirrors_of_read {l : Lockfile} {name version : String} {i : Index}
    (hindex : ∀ j, supply.Yields start supply.index j → j = i) {data : ByteArray}
    (hdata : ∀ d, supply.Yields start (supply.archive name version) d → d = data)
    (h : (((i.package? name).bind (·.versions.get? version)).map fun release ↦
        release.dependencies.map Text.trimmed) =
      (Archive.ofBytes data s!"{name}-{version}.gspkg").toOption.map (·.project.dependencies)) :
    supply.Mirrors start l name version := by
  intro j listing release a hj hlisting hget hfetched
  obtain ⟨s, hs, hresult⟩ := hfetched
  obtain ⟨found, hfound, hread, _⟩ :=
    (Batch.leads_fetch (supply.ensures_archive name version s hs) _).2 a hresult
  cases hindex j hj
  cases hdata found hfound
  rw [hlisting, Option.bind_some, hget, hread] at h
  exact (Option.some.inj h).symm

open Archive.Zip in
/-- The container of an archive with a manifest and no functions. Its files are not compressed. -/
def bundle (manifest : String) : ByteArray :=
  let pack (name : String) (content : ByteArray) : PackedFile := ⟨name.toUTF8.toList, content,
    ⟨(1 :: bytesOf content.size 2 ++ bytesOf (65535 - content.size) 2).toArray⟩ ++ content⟩
  let (entries, directory) := parts 0 [pack Archive.projectEntry manifest.toUTF8,
    pack Archive.functionsEntry "\x7b\x7d".toUTF8]
  ⟨(entries ++ directory ++ bytesOf endMark 4 ++ bytesOf 0 4 ++ bytesOf 2 2 ++ bytesOf 2 2 ++
    bytesOf directory.length 4 ++ bytesOf entries.length 4 ++ bytesOf 0 2).toArray⟩

/-- An index in which one package requires another one. -/
def shelfIndex : Index where
  packages := .ofList [("app", { versions := .ofList [("1.0.0", { dependencies := ["base "] })] }),
    ("base", { versions := .ofList [("1.0.0", {})] }),
    ("other", { versions := .ofList [("1.0.0", {})] })]

def shelved (name : String) : ByteArray :=
  bundle (if name = "app" then "\x7b\"dependencies\":[\"base\"]\x7d" else "\x7b\x7d")

/-- A registry of this index, and no files. -/
def shelf : Supply (StateM Unit) where
  index := pure shelfIndex
  archive name _ := pure (shelved name)
  locate _ := throw (.ofSystem "offline")
  file _ := throw (.ofSystem "offline")

theorem mirrors_shelf (l : Lockfile) {version : String × String}
    (h : version ∈ [("app", "1.0.0"), ("base", "1.0.0")]) :
    shelf.Mirrors () l version.1 version.2 := by
  have hindex (i : Index) (hi : shelf.Yields () shelf.index i) : i = shelfIndex := by
    obtain ⟨_, _, hi⟩ := hi
    exact (Except.ok.inj hi).symm
  have hdata (name version : String) (data : ByteArray)
      (hd : shelf.Yields () (shelf.archive name version) data) : data = shelved name := by
    obtain ⟨_, _, hd⟩ := hd
    exact (Except.ok.inj hd).symm
  rcases List.mem_pair.mp h with rfl | rfl
  · exact Supply.mirrors_of_read hindex (hdata "app" "1.0.0") (by decide +kernel)
  · exact Supply.mirrors_of_read hindex (hdata "base" "1.0.0") (by decide +kernel)

/-- The required package is installed beside the one that requires it, and nothing else is. -/
theorem Plan.closed_of_install_shelf :
    ∃ p, ((install shelf 100 (Workbook.State.ofFunctions .empty) [.requirement "app"]
        .empty).run.run ()).1 = .ok p ∧ p.lockfile.packages.keys = ["app", "base"] ∧
      p.lockfile.Closed ∧
      ∀ name, p.lockfile.contains name = true ↔ name ∈ p.lockfile.closure ["app"] := by
  have hplan : ((install shelf 100 (Workbook.State.ofFunctions .empty) [.requirement "app"]
      .empty).run.run ()).1.toOption.map (fun p ↦ (p.project.dependencies,
        p.lockfile.packages.entries.map fun entry ↦ (entry.1, entry.2.version))) =
      some (["app"], [("app", "1.0.0"), ("base", "1.0.0")]) := by
    simp only [install, Selected.ofProject, Selected.resolved,
      Resolution.resolve_eq_resolveWithin]
    decide +kernel
  obtain ⟨p, hp, hread⟩ := exists_of_map_toOption hplan
  obtain ⟨hdependencies, hentries⟩ := Prod.mk.inj hread
  have hrequirements : p.project.requirements = .ok [⟨"app", ""⟩] := by
    rw [Project.requirements, hdependencies]
    rfl
  have hregistry (ds : List Dependency) (hds : p.project.requirements = .ok ds) :
      ∀ d ∈ ds, d.isLocal = false := by
    cases hrequirements.symm.trans hds
    decide
  obtain ⟨ds, hds, hclosed, hkeys⟩ := closed_of_install hp hregistry fun entry hentry ↦
    mirrors_shelf _ (hentries ▸ List.mem_map_of_mem hentry)
  cases hrequirements.symm.trans hds
  refine ⟨p, hp, ?_, hclosed, hkeys⟩
  have hnames := congrArg (List.map Prod.fst) hentries
  rwa [List.map_map] at hnames

end SheetPackages
