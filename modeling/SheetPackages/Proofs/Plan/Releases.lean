import SheetPackages.Proofs.Plan.Pinning
import SheetPackages.Proofs.Plan.Sealing
import SheetPackages.Proofs.Resolution.Remembering

/-!
# Releases of chosen packages

A version is read from a key of the index and is later looked up again, by its own text or else by
the first key that is the same version. Where several keys are the same version, that may be another
key than the one which the version was read from. The resolver and whoever fetches the archive look
up in the same way, though: the requirements that were followed for a chosen package are those of
the release under the key that is selected, and the archive is at the path of this release.
-/

namespace SheetPackages

open Relation (ReflTransGen)

/-! ## Chosen packages -/

namespace Resolution

variable {i : Index} {s t : State} {q : Package}

/-- A package as it is pinned: offered, and with the requirements that the index has for it. -/
structure Chosen (i : Index) (q : Package) : Prop where
  offered : i.Offers q
  required : ∃ ds, i.provider.requires q = .ok ds ∧ q.dependencies = ds.map Dependency.text

theorem chosen_settled {name : String} {requirements : List Requirement} {c : Package}
    {ds : List Dependency} (hmem : c ∈ i.provider.candidates name requirements)
    (hrequires : i.provider.requires c = .ok ds) : Chosen i (settled c ds) := by
  obtain ⟨rfl, -⟩ := Index.of_mem_candidates hmem
  exact ⟨⟨requirements, c, hmem, rfl⟩, ds, hrequires, rfl⟩

theorem chosen_step (h : ∀ q ∈ s.pinned.values, Chosen i q) (hstep : Step i.provider s t) :
    ∀ q ∈ t.pinned.values, Chosen i q := by
  obtain ⟨name, found, c, hpick, hmem, ⟨hrequires, _⟩⟩ := hstep
  obtain ⟨_, rfl⟩ := pick_spec hpick
  intro q hq
  obtain ⟨other, hother⟩ := OrderedMap.mem_values_iff.mp hq
  rcases get?_pinnedWith hother with ⟨_, rfl⟩ | ⟨_, hold⟩
  · exact chosen_settled hmem hrequires
  · exact h q (OrderedMap.mem_values_iff.mpr ⟨other, hold⟩)

theorem chosen_run (h : ∀ q ∈ s.pinned.values, Chosen i q)
    (hsteps : ReflTransGen (Step i.provider) s t) : ∀ q ∈ t.pinned.values, Chosen i q := by
  induction hsteps with
  | refl => exact h
  | tail _ hstep ih => exact chosen_step ih hstep

theorem chosen_of_resolve {limit : Option Nat} {roots : List Dependency} {outcome : Outcome}
    (h : resolve i.provider limit roots = .ok outcome) : ∀ q ∈ outcome.packages, Chosen i q := by
  obtain ⟨read, s, _, hpackages, hexplored⟩ := explored_of_resolve h
  rw [hpackages]
  exact chosen_run (s := start read) nofun (hexplored.reaches rfl).1

end Resolution

/-! ## Releases -/

namespace Index

open Resolution (Met)

/-- The release under a key of the index. -/
def releaseAt? (i : Index) (name key : String) : Option Release :=
  (i.package? name).bind (·.versions.get? key)

/-- What a resolution did for one of the packages that it chose goes back to the release under a
key, and so does what is done for this key. -/
structure Backs (i : Index) (packages : List Package) (q : Package) (key : String)
    (release : Release) : Prop where
  entry : i.releaseAt? q.name key = some release
  version : ∃ v, Version.parse key = .ok v ∧ v.same q.version = true
  lookup : i.release q.name q.version = .ok release
  /-- What was required for the package, with a memo or without, was read from the release, noted
  with the package and met. -/
  followed : ∃ ds,
    List.Forall₂ (fun text d ↦ Dependency.parse text = .ok d) release.dependencies ds ∧
    i.provider.requires q = .ok ds ∧ (∀ m, Memo.Asked i m → (m.requires i q).1 = .ok ds) ∧
    q.dependencies = ds.map Dependency.text ∧ ∀ d ∈ ds, Met packages d
  archive : Registry.archivePath i q.name key =
    release.path.getD (Registry.conventionalPath q.name key)

/-- A chosen package is selected under the key of the release that was followed for it. -/
theorem exists_backs {i : Index} {roots : List Dependency} {packages : List Package} {q : Package}
    (hsolves : Resolution.Solves i roots packages) (hq : q ∈ packages)
    (hchosen : Resolution.Chosen i q) : ∃ key release,
      Selected.ofPackage i q = ⟨q.name, .registry key⟩ ∧ i.Backs packages q key release := by
  obtain ⟨ds, hrequires, hnoted⟩ := hchosen.required
  obtain ⟨release, hrelease, htexts⟩ := Resolution.requires_eq_ok_iff.mp hrequires
  obtain ⟨listing, key, hlisting, hkey, hget⟩ := exists_listing_of_release hrelease
  have hentry : i.releaseAt? q.name key = some release := by
    rw [releaseAt?, hlisting, Option.bind_some, hget]
  refine ⟨key, release, ?_, hentry, ?_, hrelease, ⟨ds, htexts, hrequires, ?_, hnoted, ?_⟩, ?_⟩
  · rw [Selected.ofPackage, hkey, Option.getD_some]
  · obtain ⟨v, hv, hsame⟩ := i.parse_key?_getD q.name q.version
    rw [hkey, Option.getD_some] at hv
    exact ⟨v, hv, (Version.same_comm v q.version).trans hsame⟩
  · exact fun m hm ↦ (hm.faithful.requires hchosen.offered).1.trans hrequires
  · intro d hd
    obtain ⟨text, htext, hparse⟩ := exists_of_mem_right htexts hd
    obtain ⟨known, hknown, hmet⟩ := hsolves.declared_met q hq
    cases hrelease.symm.trans hknown
    obtain ⟨e, he, hmet⟩ := hmet text htext
    cases hparse.symm.trans he
    exact hmet
  · change ((i.releaseAt? q.name key).bind (·.path)).getD _ = _
    rw [hentry, Option.bind_some]

end Index

/-- Each package that a resolution chose is selected under a key of the index, and all that was and
is done for it goes back to the release under this key. A release is found for every published
version. -/
theorem Selected.resolved_backed (i : Index) (limit : Nat) (needs : List Dependency) :
    (∀ selection, resolved i limit needs = .ok selection → ∃ outcome,
      Resolution.resolve i.provider (some limit) needs = .ok outcome ∧
      List.Forall₂ (fun q selected ↦ ∃ key release, selected = ⟨q.name, .registry key⟩ ∧
        i.Backs outcome.packages q key release) outcome.packages selection) ∧
    ∀ name, ∀ v ∈ i.versions name, ∃ release, i.release name v = .ok release := by
  refine ⟨fun selection h ↦ ?_, fun name v hv ↦ Index.exists_release hv⟩
  obtain ⟨outcome, houtcome, hselected⟩ := exists_of_bind_eq_ok h
  cases hselected
  obtain ⟨_, s, hroots, hpackages, hsound, hdone⟩ := Resolution.sound_of_resolve houtcome
  have hsolves : Resolution.Solves i needs outcome.packages :=
    hpackages ▸ hsound.solves hroots hdone
  have hchosen := Resolution.chosen_of_resolve houtcome
  refine ⟨outcome, houtcome, List.forall₂_map_right_iff.mpr (List.forall₂_same.mpr fun q hq ↦ ?_)⟩
  exact Index.exists_backs hsolves hq (hchosen q hq)

/-- The newest version of the library is read from its second key, which needs a package that is
gone, and is looked up under the first one. -/
def Index.rebuilt : Index where
  packages := .ofList [
    ("lib", { versions := .ofList [
      ("1.0", { dependencies := ["core>=1"], path := some "first.zip" }),
      ("v1.0.0+b", { dependencies := ["gone"] })] }),
    ("core", { versions := .ofList [("1.0.0", {})] })]

/-- The requirements of the first key are followed for a version that the second one names. -/
theorem Selected.resolved_backed_rebuilt : ∃ outcome q release,
    Resolution.resolve Index.rebuilt.provider (some 10) [⟨"lib", ""⟩] = .ok outcome ∧
      resolved .rebuilt 10 [⟨"lib", ""⟩] =
        .ok [⟨"lib", .registry "1.0"⟩, ⟨"core", .registry "1.0.0"⟩] ∧
      q ∈ outcome.packages ∧ q.version.text = "1.0.0+b" ∧ release.dependencies = ["core>=1"] ∧
      Index.rebuilt.Backs outcome.packages q "1.0" release := by
  have hversions : (resolved .rebuilt 10 [⟨"lib", ""⟩]).toOption.map
      (fun selection ↦ selection.map fun selected ↦ (selected.name, selected.origin.version?)) =
        some [("lib", some "1.0"), ("core", some "1.0.0")] := by
    simp only [resolved, Resolution.resolve_eq_resolveWithin]
    decide +kernel
  have htexts : (Resolution.resolve Index.rebuilt.provider (some 10) [⟨"lib", ""⟩]).toOption.map
      (fun outcome ↦ outcome.packages.map fun q ↦ q.version.text) =
        some ["1.0.0+b", "1.0.0"] := by
    rw [Resolution.resolve_eq_resolveWithin]
    decide +kernel
  obtain ⟨selection, hselection, hversions⟩ := exists_of_map_toOption hversions
  obtain rfl := @eq_of_versions _ [("lib", "1.0"), ("core", "1.0.0")] hversions
  obtain ⟨outcome, houtcome, hbacked⟩ := (resolved_backed _ _ _).1 _ hselection
  rw [houtcome] at htexts
  obtain ⟨q, others, hpackages, htext, -⟩ := List.map_eq_cons_iff.mp (Option.some_inj.mp htexts)
  rw [hpackages] at hbacked
  obtain ⟨⟨key, release, hselected, hbacks⟩, -⟩ := List.forall₂_cons.mp hbacked
  obtain ⟨hname, hkey⟩ := Selected.mk.inj hselected
  cases hkey
  have hentry := hbacks.entry
  rw [← hname] at hentry
  refine ⟨outcome, q, release, houtcome, hselection, ?_, htext, ?_, hpackages ▸ hbacks⟩
  · exact hpackages ▸ List.mem_cons_self
  · cases Option.some_inj.mp hentry
    rfl

end SheetPackages
