import Mathlib.Data.List.Nodup
import SheetPackages.Plan.Selection
import SheetPackages.Proofs.Declarations
import SheetPackages.Proofs.Plan.Draws
import SheetPackages.Proofs.Resolution.Soundness

/-!
# Selections

A project selects a file for each of its requirements on one, and beside the files a solution of all
other requirements, those of the archives in the files among them. What is picked under the name of
a file is left out, and what asks for such a name is not resolved unless a picked version asks for
it. So the selected packages have different names when no two requirements of the project are on the
same package, and without requirements on files they are a solution of the project's requirements.
-/

namespace SheetPackages.Selected

variable {σ : Type} {supply : Supply (StateM σ)} {start : σ}

/-- An archive that a selection took from a file is one that the file may hold. -/
def Supplied (supply : Supply (StateM σ)) (start : σ) (selected : Selected) : Prop :=
  ∀ path archive, selected.origin = .file path archive →
    supply.Yields start (supply.file path) archive

/-! ## Files -/

/-- The packages that requirements select from files, and the requirements left over, those of the
archives in the files included. -/
inductive Gathers (supply : Supply (StateM σ)) (start : σ) :
    List Dependency → List Selected → List Dependency → Prop
  | nil : Gathers supply start [] [] []
  | file {d : Dependency} {rest needs others : List Dependency} {files : List Selected}
    {path : String} {archive : Archive} (hpath : d.localPath? = some path)
    (harchive : supply.Yields start (supply.file path) archive)
    (hneeds : archive.project.requirements = .ok needs)
    (hrest : Gathers supply start rest files others) :
    Gathers supply start (d :: rest) (⟨d.name, .file path archive⟩ :: files) (needs ++ others)
  | registry {d : Dependency} {rest others : List Dependency} {files : List Selected}
    (hpath : d.localPath? = none) (hrest : Gathers supply start rest files others) :
    Gathers supply start (d :: rest) files (d :: others)

theorem gather_spec (ds : List Dependency) :
    supply.Ensures start (gather supply ds) fun (files, others) ↦
      Gathers supply start ds files others := by
  induction ds with
  | nil => exact .pure .nil
  | cons d rest ih =>
    rw [gather]
    split
    · next path hpath =>
      refine (Supply.ensures_file path).bind fun archive harchive ↦ ?_
      refine (Supply.Ensures.except fun _ h ↦ h).bind fun needs hneeds ↦ ?_
      exact ih.bind fun (files, others) h ↦ .pure (.file hpath harchive hneeds h)
    · next hpath => exact ih.bind fun (files, others) h ↦ .pure (.registry hpath h)

namespace Gathers

variable {ds others : List Dependency} {files : List Selected}

/-- A file is selected for each requirement on one. -/
theorem map_name (h : Gathers supply start ds files others) :
    files.map Selected.name = (ds.filter Dependency.isLocal).map Dependency.name := by
  induction h with
  | nil => rfl
  | @file d _ _ _ _ _ _ hpath _ _ _ ih =>
    have hlocal : d.isLocal = true := by rw [Dependency.isLocal, hpath, Option.isSome_some]
    rw [List.map_cons, ih, List.filter_cons_of_pos hlocal, List.map_cons]
  | @registry d _ _ _ hpath _ ih =>
    have hregistry : ¬d.isLocal = true := by simp [Dependency.isLocal, hpath]
    rw [ih, List.filter_cons_of_neg hregistry]

/-- What was selected was in the file, with requirements that could be read. -/
theorem of_mem (h : Gathers supply start ds files others) {selected : Selected}
    (hmem : selected ∈ files) : ∃ path archive needs, selected.origin = .file path archive ∧
      supply.Yields start (supply.file path) archive ∧
      archive.project.requirements = .ok needs ∧ ∀ d ∈ needs, d ∈ others := by
  induction h with
  | nil => cases hmem
  | @file d rest needs others files path archive _ harchive hneeds _ ih =>
    rcases List.mem_cons.mp hmem with rfl | hmem
    · exact ⟨path, archive, needs, rfl, harchive, hneeds, fun _ ↦ List.mem_append_left others⟩
    · obtain ⟨path, archive, own, horigin, harchive, hown, hothers⟩ := ih hmem
      exact ⟨path, archive, own, horigin, harchive, hown,
        fun e he ↦ List.mem_append_right needs (hothers e he)⟩
  | registry _ _ ih =>
    obtain ⟨path, archive, own, horigin, harchive, hown, hothers⟩ := ih hmem
    exact ⟨path, archive, own, horigin, harchive, hown,
      fun e he ↦ List.mem_cons_of_mem _ (hothers e he)⟩

theorem supplied (h : Gathers supply start ds files others) {selected : Selected}
    (hmem : selected ∈ files) : Supplied supply start selected := by
  obtain ⟨path, archive, _, horigin, harchive, _, _⟩ := h.of_mem hmem
  intro other found heq
  cases horigin.symm.trans heq
  exact harchive

/-- What is left over is a requirement of the project on no file, or one of an archive. -/
theorem of_mem_others (h : Gathers supply start ds files others) {e : Dependency}
    (he : e ∈ others) : (e ∈ ds ∧ e.isLocal = false) ∨ ∃ selected ∈ files, ∃ path archive needs,
      selected.origin = .file path archive ∧ archive.project.requirements = .ok needs ∧
        e ∈ needs := by
  induction h with
  | nil => cases he
  | @file d rest needs others files path archive _ _ hneeds _ ih =>
    rcases List.mem_append.mp he with he | he
    · exact .inr ⟨_, List.mem_cons_self, path, archive, needs, rfl, hneeds, he⟩
    · refine (ih he).imp (fun h ↦ ⟨List.mem_cons_of_mem d h.1, h.2⟩) ?_
      exact fun ⟨selected, hmem, h⟩ ↦ ⟨selected, List.mem_cons_of_mem _ hmem, h⟩
  | @registry d rest others files hpath _ ih =>
    rcases List.mem_cons.mp he with rfl | he
    · exact .inl ⟨List.mem_cons_self, by rw [Dependency.isLocal, hpath, Option.isSome_none]⟩
    · exact (ih he).imp_left fun h ↦ ⟨List.mem_cons_of_mem d h.1, h.2⟩

theorem of_registry (h : Gathers supply start ds files others)
    (hregistry : ∀ d ∈ ds, d.isLocal = false) : files = [] ∧ others = ds := by
  induction h with
  | nil => exact ⟨rfl, rfl⟩
  | file hpath _ _ _ _ =>
    have hlocal := hregistry _ List.mem_cons_self
    rw [Dependency.isLocal, hpath] at hlocal
    cases hlocal
  | registry _ _ ih =>
    obtain ⟨rfl, rfl⟩ := ih fun d hd ↦ hregistry d (List.mem_cons_of_mem _ hd)
    exact ⟨rfl, rfl⟩

end Gathers

/-! ## Projects -/

/-- A chosen package under the version that the index has for it. -/
def ofPackage (i : Index) (q : Package) : Selected :=
  ⟨q.name, .registry ((i.key? q.name q.version).getD q.version.text)⟩

/-- A selection for the requirements of a project and some more, by its parts: the files, and the
packages of a solution in an index that was drawn if it has any. -/
structure Selects (supply : Supply (StateM σ)) (start : σ) (ds pins : List Dependency)
    (selection : List Selected) (i : Index) (files : List Selected) (others : List Dependency)
    (packages : List Package) : Prop where
  gathers : Gathers supply start ds files others
  drawn : packages = [] ∨ supply.Yields start supply.index i
  solves : Resolution.Solves i
    ((others ++ pins).filter fun d ↦ d.name ∉ files.map Selected.name) packages
  selection_eq : selection = files ++
    (packages.map (ofPackage i)).filter fun selected ↦ selected.name ∉ files.map Selected.name

namespace Selects

variable {ds pins others : List Dependency} {selection files : List Selected} {i : Index}
  {packages : List Package}

theorem mem_of_file (h : Selects supply start ds pins selection i files others packages)
    {file : Selected} (hfile : file ∈ files) : file ∈ selection := by
  rw [h.selection_eq]
  exact List.mem_append_left _ hfile

theorem mem_of_picked (h : Selects supply start ds pins selection i files others packages)
    {q : Package} (hq : q ∈ packages) (hnew : q.name ∉ files.map Selected.name) :
    ofPackage i q ∈ selection := by
  rw [h.selection_eq]
  exact List.mem_append_right files
    (List.mem_filter.mpr ⟨List.mem_map_of_mem hq, decide_eq_true hnew⟩)

/-- What is selected is from a file, or was picked under a name that no file has. -/
theorem of_mem (h : Selects supply start ds pins selection i files others packages)
    {selected : Selected} (hmem : selected ∈ selection) : selected ∈ files ∨
      ∃ q ∈ packages, q.name ∉ files.map Selected.name ∧ selected = ofPackage i q := by
  rw [h.selection_eq] at hmem
  refine (List.mem_append.mp hmem).imp_right fun hpicked ↦ ?_
  obtain ⟨hpicked, hnew⟩ := List.mem_filter.mp hpicked
  obtain ⟨q, hq, rfl⟩ := List.mem_map.mp hpicked
  exact ⟨q, hq, of_decide_eq_true hnew, rfl⟩

/-- Under the name of a file nothing but files is selected. -/
theorem eq_of_file (h : Selects supply start ds pins selection i files others packages)
    (hnodup : (files.map Selected.name).Nodup) {file other : Selected} (hfile : file ∈ files)
    (hother : other ∈ selection) (hname : other.name = file.name) : other = file := by
  rcases h.of_mem hother with hmem | ⟨q, _, hnew, rfl⟩
  · exact List.inj_on_of_nodup_map hnodup hmem hfile hname
  · have hmem := List.mem_map_of_mem (f := Selected.name) hfile
    rw [← hname] at hmem
    exact absurd hmem hnew

/-- Under any other name at most one version is selected. -/
theorem eq_of_picked (h : Selects supply start ds pins selection i files others packages)
    {q : Package} (hq : q ∈ packages) (hnew : q.name ∉ files.map Selected.name) {other : Selected}
    (hother : other ∈ selection) (hname : other.name = q.name) : other = ofPackage i q := by
  rcases h.of_mem hother with hmem | ⟨r, hr, _, rfl⟩
  · exact absurd (hname ▸ List.mem_map_of_mem hmem) hnew
  · rw [List.inj_on_of_nodup_map h.solves.nodup hr hq hname]

theorem mem_names_iff (h : Selects supply start ds pins selection i files others packages)
    {name : String} : name ∈ selection.map Selected.name ↔
      name ∈ files.map Selected.name ∨ name ∈ packages.map Package.name := by
  constructor
  · intro hname
    obtain ⟨selected, hselected, rfl⟩ := List.mem_map.mp hname
    refine (h.of_mem hselected).imp List.mem_map_of_mem ?_
    rintro ⟨q, hq, _, rfl⟩
    exact List.mem_map_of_mem hq
  · intro hname
    by_cases hfile : name ∈ files.map Selected.name
    · obtain ⟨file, hmem, rfl⟩ := List.mem_map.mp hfile
      exact List.mem_map_of_mem (h.mem_of_file hmem)
    · obtain ⟨q, hq, rfl⟩ := List.mem_map.mp (hname.resolve_left hfile)
      exact List.mem_map_of_mem (f := Selected.name) (h.mem_of_picked hq hfile)

end Selects

theorem resolved_spec {i : Index} {limit : Nat} {needs : List Dependency} {found : List Selected}
    (h : resolved i limit needs = .ok found) : ∃ packages,
      Resolution.Solves i needs packages ∧ found = packages.map (ofPackage i) := by
  obtain ⟨outcome, houtcome, hpicked⟩ := exists_of_bind_eq_ok h
  cases hpicked
  obtain ⟨roots, s, hroots, hpackages, hsound, hdone⟩ := Resolution.sound_of_resolve houtcome
  refine ⟨outcome.packages, ?_, rfl⟩
  rw [hpackages]
  exact hsound.solves hroots hdone

/-- What a project selects is made of the files and of a solution of what is left over. -/
theorem ofProject_selects (limit : Nat) (p : Project) (pins : List Dependency) :
    supply.Ensures start (ofProject supply limit p pins) fun selection ↦
      ∃ ds i files others packages, p.requirements = .ok ds ∧
        Selects supply start ds pins selection i files others packages := by
  rw [ofProject]
  refine (Supply.Ensures.except fun _ hread ↦ hread).bind (P := (p.requirements = .ok ·))
    fun ds hds ↦ ?_
  refine (gather_spec ds).bind fun (files, others) hgathers ↦ ?_
  simp only
  split
  · next hempty =>
    refine .pure ⟨ds, {}, files, others, [], hds, hgathers, .inl rfl, ?_, ?_⟩
    · rw [List.isEmpty_iff.mp hempty]
      exact Resolution.Solves.empty _
    · exact (List.append_nil files).symm
  · refine Supply.ensures_index.yields.bind fun i hi ↦ ?_
    refine (Supply.Ensures.except fun _ h ↦ resolved_spec h).bind fun found hfound ↦ .pure ?_
    obtain ⟨packages, hsolves, rfl⟩ := hfound
    exact ⟨ds, i, files, others, packages, hds, hgathers, .inr hi, hsolves, rfl⟩

/-- The packages that a project selects have different names when its requirements have. -/
theorem ofProject_spec (limit : Nat) (p : Project) (pins : List Dependency) :
    supply.Ensures start (ofProject supply limit p pins) fun selection ↦
      ∃ ds, p.requirements = .ok ds ∧
        ((ds.map Dependency.name).Nodup → (selection.map Selected.name).Nodup) ∧
        ∀ selected ∈ selection, Supplied supply start selected := by
  refine (ofProject_selects limit p pins).imp fun selection h ↦ ?_
  obtain ⟨ds, i, files, others, packages, hds, hselects⟩ := h
  refine ⟨ds, hds, fun hnodup ↦ ?_, ?_⟩
  · rw [hselects.selection_eq, List.map_append, List.nodup_append]
    refine ⟨?_, ?_, ?_⟩
    · rw [hselects.gathers.map_name]
      exact hnodup.sublist (List.filter_sublist.map _)
    · have hnames : ((packages.map (ofPackage i)).map Selected.name).Nodup := by
        rw [List.map_map]
        exact hselects.solves.nodup
      exact hnames.sublist (List.filter_sublist.map _)
    · intro name hname other hother heq
      obtain ⟨selected, hselected, rfl⟩ := List.mem_map.mp hother
      exact of_decide_eq_true (List.mem_filter.mp hselected).2 (heq ▸ hname)
  · intro selected hselected
    rcases hselects.of_mem hselected with hfile | ⟨q, _, _, rfl⟩
    · exact hselects.gathers.supplied hfile
    · intro path archive heq
      cases heq

/-- Without requirements on files, a selection is a solution of the project's requirements in some
index that was drawn, unless nothing is required. -/
theorem ofProject_of_registry (limit : Nat) {p : Project} {ds : List Dependency}
    (hds : p.requirements = .ok ds) (hregistry : ∀ d ∈ ds, d.isLocal = false) :
    supply.Ensures start (ofProject supply limit p []) fun selection ↦ ∃ i packages,
      (packages = [] ∨ supply.Yields start supply.index i) ∧
        Resolution.Solves i ds packages ∧ selection = packages.map (ofPackage i) := by
  refine (ofProject_selects limit p []).imp fun selection h ↦ ?_
  obtain ⟨read, i, files, others, packages, hread, hselects⟩ := h
  cases hds.symm.trans hread
  obtain ⟨rfl, rfl⟩ := hselects.gathers.of_registry hregistry
  have hsolves := hselects.solves
  simp only [List.append_nil, List.map_nil, List.not_mem_nil, not_false_eq_true, decide_true,
    List.filter_true] at hsolves
  refine ⟨i, packages, hselects.drawn, hsolves, ?_⟩
  simp [hselects.selection_eq]

/-- The packages that an orderly project selects have different names. -/
theorem nodup_ofProject {p : Project} (hp : p.Orderly) (limit : Nat) (pins : List Dependency) :
    supply.Ensures start (ofProject supply limit p pins) fun selection ↦
      (selection.map Selected.name).Nodup ∧
        ∀ selected ∈ selection, Supplied supply start selected := by
  obtain ⟨ds, hds⟩ := hp.records
  refine (ofProject_spec limit p pins).imp fun selection h ↦ ?_
  obtain ⟨read, hread, hnodup, hsupplied⟩ := h
  obtain rfl : ds = read := Except.ok.inj (hds.requirements.symm.trans hread)
  exact ⟨hnodup hds.nodup, hsupplied⟩

end SheetPackages.Selected
