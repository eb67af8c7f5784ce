import SheetPackages.Proofs.Lockfile.Rounds
import SheetPackages.Proofs.Plan.Coverage
import SheetPackages.Proofs.Version.Spelling

/-!
# Pinned packages

An upgrade pins a package that is not to move by a requirement whose text is made from the locked
version. The requirement is read back as that version, only versions of the same precedence satisfy
it, and the key under which the index lists one of these is read as the same version again. So the
package is installed at the version that it had, unless the project takes it from a file.
-/

namespace SheetPackages

variable {σ : Type} {supply : Supply (StateM σ)} {start : σ} {s : Workbook.State}
  {renames : RenameMaps} {targets : List String} {limit : Nat} {name : String} {v : Version}

/-! ## Keys -/

/-- The key of a version is a text of the same version. -/
theorem Listing.parse_of_key? {l : Listing} {key : String} (h : l.key? v = some key) :
    ∃ w, Version.parse key = .ok w ∧ v.same w = true := by
  rw [key?] at h
  split at h
  · cases h
    exact ⟨v, v.parse_text, v.same_self⟩
  · obtain ⟨entry, hfind, rfl⟩ := Option.map_eq_some_iff.mp h
    obtain ⟨key, _, hread⟩ := List.mem_filterMap.mp (List.mem_of_find?_eq_some hfind)
    obtain ⟨w, hw, rfl⟩ := Option.map_eq_some_iff.mp hread
    have hsame := List.find?_some (p := fun entry : String × Version ↦ entry.2.same v) hfind
    exact ⟨w, toOption_eq_some_iff.mp hw, (Version.same_comm v w).trans hsame⟩

/-- What is selected for a version is a text of the same version. -/
theorem Index.parse_key?_getD (i : Index) (name : String) (v : Version) :
    ∃ w, Version.parse ((i.key? name v).getD v.text) = .ok w ∧ v.same w = true := by
  cases h : i.key? name v with
  | none => exact ⟨v, v.parse_text, v.same_self⟩
  | some key =>
    obtain ⟨listing, _, hkey⟩ := Option.bind_eq_some_iff.mp h
    exact Listing.parse_of_key? hkey

/-! ## Pins -/

theorem Plan.mem_pins {l : Lockfile} {entry : Locked} (hentry : l.get? name = some entry)
    (hfixed : name ∉ l.closure (if targets = [] then l.packages.keys else targets))
    (hregistry : entry.isLocal = false) (hversion : Version.parse entry.version = .ok v) :
    ⟨name, "==" ++ v.text⟩ ∈ pins l targets := by
  refine List.mem_filterMap.mpr ⟨(name, entry), OrderedMap.get?_eq_some_iff.mp hentry, ?_⟩
  simp only [pin?, decide_eq_false hfixed, hregistry, hversion, Bool.or_self, Bool.false_eq_true,
    if_false]

/-- A pin is met by a version of the same precedence. -/
theorem Resolution.exists_of_met_pin {packages : List Package}
    (h : Met packages ⟨name, "==" ++ v.text⟩) :
    ∃ q ∈ packages, q.name = name ∧ v.same q.version = true := by
  obtain ⟨range, hrange, q, hq, hname, haccepts⟩ := h
  cases (Version.Range.parse_exactly v).symm.trans hrange
  exact ⟨q, hq, hname, Version.Range.same_of_accepts_exactly haccepts⟩

/-- A pinned package that does not come from a file is selected once, by a text of the version that
it is pinned to. -/
theorem Selected.Selects.exists_of_pin {ds pins others : List Dependency}
    {selection files : List Selected} {i : Index} {packages : List Package}
    (h : Selects supply start ds pins selection i files others packages)
    (hpin : ⟨name, "==" ++ v.text⟩ ∈ pins) (hfile : ∀ d ∈ ds, d.isLocal = true → d.name ≠ name) :
    ∃ key w, ⟨name, .registry key⟩ ∈ selection ∧ Version.parse key = .ok w ∧ v.same w = true ∧
      ∀ selected ∈ selection, selected.name = name → selected = ⟨name, .registry key⟩ := by
  have hnew : name ∉ files.map Selected.name := by
    rw [h.gathers.map_name]
    intro hmem
    obtain ⟨d, hd, hname⟩ := List.mem_map.mp hmem
    exact hfile d (List.mem_filter.mp hd).1 (List.mem_filter.mp hd).2 hname
  have hroot := h.solves.roots_met _
    (List.mem_filter.mpr ⟨List.mem_append_right others hpin, decide_eq_true hnew⟩)
  obtain ⟨q, hq, rfl, hsame⟩ := Resolution.exists_of_met_pin hroot
  obtain ⟨w, hw, hkey⟩ := i.parse_key?_getD q.name q.version
  exact ⟨_, w, h.mem_of_picked hq hnew, hw, Version.same_trans hsame hkey, fun _ ↦
    h.eq_of_picked hq hnew⟩

/-! ## Upgrades -/

theorem Batch.isSameVersion_of_parse {a b : String} {w : Version} (ha : Version.parse a = .ok v)
    (hb : Version.parse b = .ok w) (h : v.same w = true) : isSameVersion a b = true := by
  rw [isSameVersion, ha, hb]
  exact h

/-- What is reported as new is selected at another version than the locked one. -/
theorem Plan.exists_of_contains_newVersions {l : Lockfile} {selection : List Selected}
    (h : (newVersions l selection).contains name = true) : ∃ entry version,
      l.get? name = some entry ∧ ⟨name, .registry version⟩ ∈ selection ∧
        Batch.isSameVersion entry.version version = false := by
  rw [newVersions, OrderedMap.ofList, OrderedMap.contains_insertAll] at h
  obtain ⟨report, hreport, rfl⟩ := List.mem_map.mp (h.resolve_left Bool.false_ne_true)
  obtain ⟨⟨found, origin⟩, hselected, hnew⟩ := List.mem_filterMap.mp hreport
  cases origin with
  | file path archive => cases hnew
  | registry version =>
    simp only at hnew
    split at hnew
    · cases hnew
    · next entry hentry =>
      split at hnew
      · cases hnew
      · next hmoved =>
        cases hnew
        rw [Bool.or_eq_true, not_or, Bool.not_eq_true, Bool.not_eq_true] at hmoved
        exact ⟨entry, version, hentry, hselected, hmoved.2⟩

/-- A locked package that is not to be upgraded, and that neither came nor comes from a file, is
locked at the same version after the upgrade, and is not reported as upgraded. -/
theorem Plan.upgrade_keeps {u : Upgrade} {plan : Plan}
    (h : ((upgrade supply limit s targets renames).run.run start).1 = .ok u)
    (hplan : u.plan = some plan) : ∃ p ds, s.project = some p ∧ p.requirements = .ok ds ∧
      ∀ name entry v, s.lockfile.get? name = some entry →
        name ∉ s.lockfile.closure (if targets = [] then s.lockfile.packages.keys else targets) →
        entry.isLocal = false → Version.parse entry.version = .ok v →
        (∀ d ∈ ds, d.isLocal = true → d.name ≠ name) →
        (∃ kept w, plan.lockfile.get? name = some kept ∧ Version.parse kept.version = .ok w ∧
          v.same w = true) ∧ u.versions.contains name = false := by
  obtain ⟨p, selection, hproject, hselection, hversions, hmade⟩ :=
    (upgrade_spec limit s targets renames).run h
  obtain ⟨ds, i, files, others, packages, hds, hselects⟩ :=
    (Selected.ofProject_selects limit p _).of_yields hselection
  obtain ⟨batch, checked, hunpacks, hchecks, rfl⟩ :=
    (Batch.planOf_spec s p selection renames).of_yields (hmade plan hplan)
  refine ⟨p, ds, hproject, hds, fun name entry v hentry hfixed hregistry hv hfile ↦ ?_⟩
  obtain ⟨key, w, hselected, hw, hsame, honly⟩ :=
    hselects.exists_of_pin (mem_pins hentry hfixed hregistry hv) hfile
  constructor
  · obtain ⟨_, functions, hunpacked, hkept⟩ :=
      Batch.exists_locked_of_selected hunpacks hchecks hselected honly
    cases hunpacked
    exact ⟨_, w, hkept, hw, hsame⟩
  · rw [← Bool.not_eq_true, hversions]
    intro hnew
    obtain ⟨old, version, hold, hmem, hmoved⟩ := exists_of_contains_newVersions hnew
    cases hentry.symm.trans hold
    cases honly _ hmem rfl
    rw [Batch.isSameVersion_of_parse hv hw hsame] at hmoved
    cases hmoved

/-- A workbook with an application and a library, of which the registry has newer versions. The
index lists the locked version of the library under a shorter text. -/
def aged : Workbook.State where
  project := some { dependencies := ["app", "lib"] }
  lockfile := ⟨.ofList [("app", { version := "1.0.0" }), ("lib", { version := "1.0.0-rc+old" })]⟩

def fresh : Supply (StateM Unit) :=
  { shelf with
    index := pure ⟨.ofList [
      ("app", { versions := .ofList [("1.0.0", {}), ("2.0.0", {})] }),
      ("lib", { versions := .ofList [("v1-rc", {}), ("1.1.0", {})] })]⟩
    archive := fun _ _ ↦ pure (bundle "\x7b\x7d") }

/-- The application moves, the library stays. -/
theorem Plan.upgrade_keeps_aged : ∃ u plan v kept w,
    ((upgrade fresh 100 aged ["app"] .empty).run.run ()).1 = .ok u ∧ u.plan = some plan ∧
      u.versions.entries = [("app", "1.0.0", "2.0.0")] ∧
      Version.parse "1.0.0-rc+old" = .ok v ∧ plan.lockfile.get? "lib" = some kept ∧
      Version.parse kept.version = .ok w ∧ v.same w = true ∧
      u.versions.contains "lib" = false := by
  have hrun : ((upgrade fresh 100 aged ["app"] .empty).run.run ()).1.toOption.map
      (fun u ↦ (u.versions.entries, u.plan.isSome)) =
        some ([("app", "1.0.0", "2.0.0")], true) := by
    simp only [upgrade, Selected.ofProject, Selected.resolved, Lockfile.closure_eq_iterate,
      Resolution.resolve_eq_resolveWithin]
    decide +kernel
  obtain ⟨u, hu, hread⟩ := exists_of_map_toOption hrun
  obtain ⟨hversions, hsome⟩ := Prod.mk.inj hread
  obtain ⟨plan, hplan⟩ := Option.isSome_iff_exists.mp hsome
  have hfixed : "lib" ∉ aged.lockfile.closure ["app"] := by
    rw [Lockfile.closure_eq_iterate]
    decide +kernel
  have hlocked : (Version.parse "1.0.0-rc+old").toOption.map Version.major = some 1 := by
    decide +kernel
  obtain ⟨v, hv, -⟩ := exists_of_map_toOption hlocked
  obtain ⟨p, ds, hproject, hds, hkeeps⟩ := upgrade_keeps hu hplan
  cases hproject
  have hrequirements : Project.requirements { dependencies := ["app", "lib"] } =
      .ok [⟨"app", ""⟩, ⟨"lib", ""⟩] := by decide +kernel
  cases hrequirements.symm.trans hds
  obtain ⟨⟨kept, w, hkept, hw, hsame⟩, hnew⟩ :=
    hkeeps "lib" _ v rfl hfixed rfl hv (by decide)
  exact ⟨u, plan, v, kept, w, hu, hplan, hversions, hv, hkept, hw, hsame, hnew⟩

end SheetPackages
