import SheetPackages.Proofs.Lockfile.Rounds
import SheetPackages.Proofs.Plan.Coverage

/-!
# Shadowed packages

A package that comes from a file takes the place of the version that was picked for its name, but
only after the resolution: what this version asks for has been picked as well, and stays. So an
installation may lock packages that the project does not reach through the lockfile. All locked
packages are reached exactly when everything is that was asked for and that the lockfile does not
record; and where the requirements on files are on different packages, only versions that were
picked under the names of files ask for what the lockfile does not record.
-/

namespace SheetPackages

open Relation (ReflTransGen)
open Resolution (Declares Leads Met)

variable {σ : Type} {supply : Supply (StateM σ)} {start : σ} {s : Workbook.State}
  {renames : RenameMaps}

/-! ## Asking -/

/-- What asks for a package when files and versions have been picked: the archive in a file, or a
version, whether or not a file takes its place. -/
inductive Selected.Asks (i : Index) (files : List Selected) (packages : List Package) :
    String → String → Prop
  | archive {name path : String} {a : Archive} {needs : List Dependency} {d : Dependency}
    (hfile : ⟨name, .file path a⟩ ∈ files) (hneeds : a.project.requirements = .ok needs)
    (hd : d ∈ needs) : Asks i files packages name d.name
  | picked {name needed : String} (h : Leads i packages name needed) :
    Asks i files packages name needed

namespace Selected.Selects

variable {ds others : List Dependency} {selection files : List Selected} {i : Index}
  {packages : List Package} {name needed : String}

/-- What is asked for is selected. -/
theorem mem_of_asks (h : Selects supply start ds [] selection i files others packages)
    (hasks : Asks i files packages name needed) : needed ∈ selection.map Selected.name := by
  have hmet {d : Dependency} (hd : Met packages d) : d.name ∈ packages.map Package.name := by
    obtain ⟨_, _, q, hq, hname, _⟩ := hd
    exact hname ▸ List.mem_map_of_mem hq
  rw [h.mem_names_iff]
  cases hasks with
  | @archive path a needs d hfile hneeds hd =>
    by_cases hname : d.name ∈ files.map Selected.name
    · exact .inl hname
    · obtain ⟨_, _, own, horigin, _, hown, hothers⟩ := h.gathers.of_mem hfile
      cases horigin
      cases hneeds.symm.trans hown
      refine .inr (hmet (h.solves.roots_met d (List.mem_filter.mpr ⟨?_, decide_eq_true hname⟩)))
      exact List.mem_append_left [] (hothers d hd)
  | picked hleads =>
    obtain ⟨q, hq, _, d, ⟨release, hrelease, text, htext, hparse⟩, rfl⟩ := hleads
    obtain ⟨found, hfound, hread⟩ := h.solves.declared_met q hq
    cases hrelease.symm.trans hfound
    obtain ⟨read, hparsed, hd⟩ := hread text htext
    cases hparse.symm.trans hparsed
    exact .inr (hmet hd)

/-- Names among which are the required ones, and with each name the ones that it asks for, are all
that is selected. -/
theorem forall_of_asks (h : Selects supply start ds [] selection i files others packages)
    {P : String → Prop} (hroots : ∀ d ∈ ds, P d.name)
    (hasks : ∀ name needed, Asks i files packages name needed → P name → P needed) :
    ∀ name ∈ selection.map Selected.name, P name := by
  have hfiles : ∀ name ∈ files.map Selected.name, P name := by
    intro name hname
    rw [h.gathers.map_name] at hname
    obtain ⟨d, hd, rfl⟩ := List.mem_map.mp hname
    exact hroots d (List.mem_filter.mp hd).1
  intro name hname
  rcases h.mem_names_iff.mp hname with hfile | hpicked
  · exact hfiles name hfile
  · obtain ⟨q, hq, rfl⟩ := List.mem_map.mp hpicked
    obtain ⟨root, hroot, hreaches⟩ := h.solves.reachable q hq
    have hP : P root.name := by
      rw [List.append_nil, List.mem_filter] at hroot
      rcases h.gathers.of_mem_others hroot.1 with ⟨hd, _⟩ | ⟨selected, hselected, path, a, needs,
        horigin, hneeds, hd⟩
      · exact hroots root hd
      · obtain ⟨file, _⟩ := selected
        cases horigin
        exact hasks file root.name (.archive hselected hneeds hd)
          (hfiles file (List.mem_map_of_mem hselected))
    -- Each step to the package is an ask of a picked version.
    generalize q.name = last at hreaches
    induction hreaches with
    | refl => exact hP
    | tail _ hleads ih => exact hasks _ _ (.picked hleads) ih

end Selected.Selects

/-! ## Recording -/

/-- The package asks for another one, which its entry does not list. -/
def Lockfile.Omits (l : Lockfile) (i : Index) (files : List Selected) (packages : List Package)
    (name needed : String) : Prop :=
  Selected.Asks i files packages name needed ∧ needed ∉ l.needs name

section

variable {ds others : List Dependency} {selection files : List Selected} {i : Index}
  {packages : List Package}

/-- All that is locked is reached from the requirements exactly when the omitted packages are. -/
theorem Selected.Selects.reached_iff {l : Lockfile}
    (h : Selects supply start ds [] selection i files others packages)
    (hlocked : ∀ name, l.contains name = true ↔ name ∈ selection.map Selected.name) :
    (∀ name, l.contains name = true → name ∈ l.closure (ds.map Dependency.name)) ↔
      ∀ name needed, l.Omits i files packages name needed →
        needed ∈ l.closure (ds.map Dependency.name) := by
  constructor
  · intro hall name needed homits
    exact hall needed ((hlocked needed).mpr (h.mem_of_asks homits.1))
  · intro homitted name hname
    refine h.forall_of_asks (P := (· ∈ l.closure (ds.map Dependency.name))) ?_ ?_ name
      ((hlocked name).mp hname)
    · exact fun d hd ↦ Lockfile.mem_closure_of_mem (List.mem_map_of_mem hd)
    · intro name needed hasks hreached
      by_cases hneeds : needed ∈ l.needs name
      · exact Lockfile.mem_closure_of_reaches hreached (.single hneeds)
      · exact homitted name needed ⟨hasks, hneeds⟩

theorem Locked.isLocal_fileOrigin {l : Locked} {path : String}
    (h : l.resolved = some (fileOrigin path)) : l.isLocal = true := by
  have hprefix : (fileOrigin path).toList = "file:".toList ++ path.toList :=
    String.toList_append
  rw [isLocal, h, Option.any_some, Text.behind?, hprefix,
    List.isPrefixOf?_eq_some_iff_append_eq.mpr rfl]
  rfl

theorem Locked.isLocal_registryOrigin {l : Locked} {name version : String}
    (h : l.resolved = some (registryOrigin name version)) : l.isLocal = false := by
  have hprefix : "file:".toList.isPrefixOf? (registryOrigin name version).toList = none := by
    rw [registryOrigin, String.toList_append, String.toList_append, String.toList_append]
    rfl
  rw [isLocal, h, Option.any_some, Text.behind?, hprefix]
  rfl

variable {batch checked : List Unpacked}

/-- What an archive in a file asks for is listed, when no other file is selected for its name. -/
theorem Batch.mem_needs_of_archive
    (h : Selected.Selects supply start ds [] selection i files others packages)
    (hunpacks : List.Forall₂ (Unpacks (Fetches supply start s.lockfile)) selection batch)
    (hchecks : check s renames batch = .ok checked)
    (htrimmed : ∀ entry ∈ (lockfile (checked.map (withAliases renames))).packages.entries,
      entry.2.isLocal = true → ∀ text ∈ entry.2.dependencies, Text.trimmed text = text)
    (hnodup : ((ds.filter Dependency.isLocal).map Dependency.name).Nodup)
    {name path : String} {a : Archive} {needs : List Dependency} {d : Dependency}
    (hfile : ⟨name, .file path a⟩ ∈ files) (hneeds : a.project.requirements = .ok needs)
    (hd : d ∈ needs) : d.name ∈ (lockfile (checked.map (withAliases renames))).needs name := by
  rw [← h.gathers.map_name] at hnodup
  obtain ⟨u, functions, hunpacked, hlocked⟩ := exists_locked_of_selected hunpacks hchecks
    (h.mem_of_file hfile) fun _ ↦ h.eq_of_file hnodup hfile
  cases hunpacked
  obtain ⟨text, htext, hparse⟩ := exists_of_mem_right (mapM_eq_ok_iff.mp hneeds) hd
  have htrim := htrimmed _ (OrderedMap.get?_eq_some_iff.mp hlocked)
    (Locked.isLocal_fileOrigin rfl) text htext
  rw [Lockfile.needs, hlocked]
  refine List.mem_map.mpr ⟨text, htext, ?_⟩
  rw [← htrim]
  exact Locked.nameOf_trimmed (Resolution.read_eq_ok_iff.mp hparse)

/-- What a picked version asks for is listed, when no file takes its place. -/
theorem Batch.mem_needs_of_picked
    (h : Selected.Selects supply start ds [] selection i files others packages)
    (hunpacks : List.Forall₂ (Unpacks (Fetches supply start s.lockfile)) selection batch)
    (hchecks : check s renames batch = .ok checked)
    (hmirrors : ∀ entry ∈ (lockfile (checked.map (withAliases renames))).packages.entries,
      entry.2.isLocal = false → supply.Mirrors start s.lockfile entry.1 entry.2.version)
    {name needed : String} (hleads : Leads i packages name needed)
    (hpicked : name ∉ files.map Selected.name) :
    needed ∈ (lockfile (checked.map (withAliases renames))).needs name := by
  obtain ⟨q, hq, rfl, d, ⟨release, hrelease, text, htext, hparse⟩, rfl⟩ := hleads
  obtain ⟨u, functions, hunpacked, hlocked⟩ := exists_locked_of_selected hunpacks hchecks
    (h.mem_of_picked hq hpicked) fun _ ↦ h.eq_of_picked hq hpicked
  have hregistry : Locked.isLocal { u.locked with functions } = false := by
    cases hunpacked
    exact Locked.isLocal_registryOrigin rfl
  have hmirror := hmirrors _ (OrderedMap.get?_eq_some_iff.mp hlocked) hregistry
  have hdrawn := h.drawn.resolve_left (List.ne_nil_of_mem hq)
  rw [needs_of_mirrors hdrawn hrelease hunpacked hlocked hmirror]
  exact List.mem_map.mpr ⟨text, htext, Locked.nameOf_trimmed hparse⟩

end

/-! ## Installations -/

/-- In an installation where archives declare what the index lists, without blanks around it, all
that is locked is reached from the project's requirements exactly when the omitted packages are. If
the requirements on files are on different packages, what omits them is a version that was picked
under the name of a file. -/
theorem Plan.reached_iff_of_install {limit : Nat} {targets : List Target} {p : Plan}
    (h : ((install supply limit s targets renames).run.run start).1 = .ok p)
    (hmirrors : ∀ entry ∈ p.lockfile.packages.entries, entry.2.isLocal = false →
      supply.Mirrors start s.lockfile entry.1 entry.2.version)
    (htrimmed : ∀ entry ∈ p.lockfile.packages.entries, entry.2.isLocal = true →
      ∀ text ∈ entry.2.dependencies, Text.trimmed text = text) :
    ∃ ds selection i files others packages, p.project.requirements = .ok ds ∧
      Selected.Selects supply start ds [] selection i files others packages ∧
      (∀ name, p.lockfile.contains name = true ↔ name ∈ selection.map Selected.name) ∧
      ((∀ name, p.lockfile.contains name = true →
          name ∈ p.lockfile.closure (ds.map Dependency.name)) ↔
        ∀ name needed, p.lockfile.Omits i files packages name needed →
          needed ∈ p.lockfile.closure (ds.map Dependency.name)) ∧
      (((ds.filter Dependency.isLocal).map Dependency.name).Nodup →
        ∀ name needed, p.lockfile.Omits i files packages name needed →
          name ∈ files.map Selected.name ∧ Leads i packages name needed) := by
  obtain ⟨project, selection, _, hselection, hmade⟩ :=
    (install_spec limit s targets renames).run h
  obtain ⟨batch, checked, hunpacks, hchecks, rfl⟩ :=
    (Batch.planOf_spec s project selection renames).of_yields hmade
  obtain ⟨ds, i, files, others, packages, hds, hselects⟩ :=
    (Selected.ofProject_selects limit project []).of_yields hselection
  have hlocked (name : String) :
      (Batch.lockfile (checked.map (Batch.withAliases renames))).contains name = true ↔
        name ∈ selection.map Selected.name := by
    rw [Batch.contains_lockfile, Batch.map_name_of_check hchecks,
      Batch.Unpacks.map_name hunpacks]
  refine ⟨ds, selection, i, files, others, packages, hds, hselects, hlocked,
    hselects.reached_iff hlocked, fun hnodup name needed homits ↦ ?_⟩
  obtain ⟨hasks, homitted⟩ := homits
  cases hasks with
  | archive hfile hneeds hd =>
    exact absurd (Batch.mem_needs_of_archive hselects hunpacks hchecks htrimmed hnodup hfile hneeds
      hd) homitted
  | picked hleads =>
    refine ⟨?_, hleads⟩
    by_contra hpicked
    exact homitted (Batch.mem_needs_of_picked hselects hunpacks hchecks hmirrors hleads hpicked)

/-! ## A shadowed library -/

/-- An index in which an application requires a library and the library one more package. -/
def layeredIndex : Index where
  packages := .ofList [("app", { versions := .ofList [("1.0.0", { dependencies := ["lib"] })] }),
    ("lib", { versions := .ofList [("1.0.0", { dependencies := ["extra"] })] }),
    ("extra", { versions := .ofList [("1.0.0", {})] })]

/-- A registry of this index, and a file with a library of the same name that requires nothing. -/
def layered : Supply (StateM Unit) where
  index := pure layeredIndex
  archive name _ :=
    pure (bundle (if name = "app" then "\x7b\"dependencies\":[\"lib\"]\x7d" else "\x7b\x7d"))
  locate _ := throw (.ofSystem "offline")
  file _ := pure { project := { name := "lib" }, functions := .empty, integrity := "sha256:0" }

theorem mirrors_layered (l : Lockfile) {name : String} (h : name = "app" ∨ name = "extra") :
    layered.Mirrors () l name "1.0.0" := by
  have hindex (i : Index) (hi : layered.Yields () (pure layeredIndex) i) : i = layeredIndex :=
    (Supply.Ensures.pure (Q := (· = layeredIndex)) rfl).of_yields hi
  have hdata (data d : ByteArray) (hd : layered.Yields () (pure data) d) : d = data :=
    (Supply.Ensures.pure (Q := (· = data)) rfl).of_yields hd
  rcases h with rfl | rfl
  · exact Supply.mirrors_of_read hindex (hdata _) (by decide +kernel)
  · exact Supply.mirrors_of_read hindex (hdata _) (by decide +kernel)

/-- The library in the file and the application are installed, and the package that neither the
project nor one of the two requires. -/
theorem Plan.exists_install_layered : ∃ p,
    ((install layered 100 {} [.requirement "lib@file:/lib", .requirement "app"]
      .empty).run.run ()).1 = .ok p ∧
      p.project.requirements = .ok [⟨"lib", "@file:/lib"⟩, ⟨"app", ""⟩] ∧
      (∀ entry ∈ p.lockfile.packages.entries, entry.2.isLocal = false →
        layered.Mirrors () {} entry.1 entry.2.version) ∧
      (∀ entry ∈ p.lockfile.packages.entries, entry.2.isLocal = true →
        ∀ text ∈ entry.2.dependencies, Text.trimmed text = text) ∧
      p.lockfile.contains "extra" = true ∧ "extra" ∉ p.lockfile.closure ["lib", "app"] := by
  have hplan : (((install layered 100 {} [.requirement "lib@file:/lib", .requirement "app"]
      .empty).run.run ()).1.toOption.any fun p ↦
        p.project.dependencies = ["lib@file:/lib", "app"] ∧
        (∀ entry ∈ p.lockfile.packages.entries, entry.2.isLocal = false →
          (entry.1 = "app" ∨ entry.1 = "extra") ∧ entry.2.version = "1.0.0") ∧
        (∀ entry ∈ p.lockfile.packages.entries, entry.2.isLocal = true →
          entry.2.dependencies = []) ∧
        p.lockfile.contains "extra" = true ∧
        "extra" ∉ (p.lockfile.round^[2 + p.lockfile.listed] ([], ["lib", "app"])).1) = true := by
    simp only [install, Selected.ofProject, Selected.resolved,
      Resolution.resolve_eq_resolveWithin]
    decide +kernel
  obtain ⟨p, hp, hread⟩ := (Option.any_eq_true _ _).mp hplan
  obtain ⟨hdependencies, hregistry, hlocal, hextra, hunreached⟩ := of_decide_eq_true hread
  refine ⟨p, toOption_eq_some_iff.mp hp, ?_, fun entry hentry hfetched ↦ ?_, ?_, hextra, ?_⟩
  · rw [Project.requirements, hdependencies]
    decide +kernel
  · obtain ⟨hname, hversion⟩ := hregistry entry hentry hfetched
    exact hversion ▸ mirrors_layered {} hname
  · intro entry hentry hfile text htext
    rw [hlocal entry hentry hfile] at htext
    cases htext
  · rw [Lockfile.closure_eq_iterate]
    exact hunreached

/-- The package that only the shadowed library requires is installed, and nothing leads to it. -/
theorem Plan.unreached_of_install_layered : ∃ p ds,
    ((install layered 100 {} [.requirement "lib@file:/lib", .requirement "app"]
      .empty).run.run ()).1 = .ok p ∧ p.project.requirements = .ok ds ∧
      (∃ d ∈ ds, d.isLocal = true) ∧
      (∀ entry ∈ p.lockfile.packages.entries, entry.2.isLocal = false →
        layered.Mirrors () {} entry.1 entry.2.version) ∧
      (∀ entry ∈ p.lockfile.packages.entries, entry.2.isLocal = true →
        ∀ text ∈ entry.2.dependencies, Text.trimmed text = text) ∧
      p.lockfile.contains "extra" = true ∧
      "extra" ∉ p.lockfile.closure (ds.map Dependency.name) := by
  obtain ⟨p, hp, hds, hmirrors, htrimmed, hextra, hunreached⟩ := exists_install_layered
  exact ⟨p, _, hp, hds, by decide, hmirrors, htrimmed, hextra, hunreached⟩

/-- What leads from the shadowed library to the package is the version that was picked for it. -/
theorem Plan.reached_iff_of_install_layered : ∃ p i packages needed,
    ((install layered 100 {} [.requirement "lib@file:/lib", .requirement "app"]
      .empty).run.run ()).1 = .ok p ∧ Leads i packages "lib" needed ∧
      needed ∉ p.lockfile.closure ["lib", "app"] := by
  obtain ⟨p, hp, hds, hmirrors, htrimmed, hextra, hunreached⟩ := exists_install_layered
  obtain ⟨read, selection, i, files, others, packages, hread, hselects, _, hreached, homits⟩ :=
    reached_iff_of_install hp hmirrors htrimmed
  cases hds.symm.trans hread
  have homitted := mt hreached.mpr fun hall ↦ hunreached (hall "extra" hextra)
  simp only [not_forall, exists_prop] at homitted
  obtain ⟨name, needed, homitted, hnew⟩ := homitted
  obtain ⟨hfile, hleads⟩ := homits (by decide) name needed homitted
  rw [hselects.gathers.map_name] at hfile
  obtain rfl : name = "lib" := List.mem_singleton.mp hfile
  exact ⟨p, i, packages, needed, hp, hleads, hnew⟩

end SheetPackages
