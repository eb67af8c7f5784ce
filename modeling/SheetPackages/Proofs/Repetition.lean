import SheetPackages.Proofs.Ownership
import SheetPackages.Proofs.Plan.Steady
import SheetPackages.Proofs.Project.Repeating

/-!
# Repeated installations

An installation that is repeated when its plan has been carried out succeeds, and plans what is
there already: it writes the project and the lockfile anew and leaves every other function alone.
The supply has to be steady; names and requirements have to be such that list cells can keep them,
and no two requirements of the project may be on the same package. Aliases may be anything, even
names that are reserved. What an upgrade does then is not described.
-/

namespace SheetPackages

open Workbook (Change State Storable)

theorem Workbook.integrity_of_mem_reread {entry : Locked} {integrity : String}
    (h : integrity ∈ (reread entry).integrity) : entry.integrity = some integrity := by
  rw [reread, Option.mem_def, Option.filter_eq_some_iff] at h
  exact h.1

/-! ## Projects -/

/-- The entries can be kept in a list cell, and no two of them are requirements on one package. -/
structure Project.Unambiguous (p : Project) : Prop where
  storable : ∀ text ∈ p.dependencies, Storable text
  nodup : (packages p.dependencies).Nodup

theorem Workbook.further_project (functions : FunctionMap) :
    ((State.ofFunctions functions).project.getD Plan.initialProject).Further := by
  rw [State.ofFunctions]
  cases hproject : project? functions with
  | none => exact fun _ hkey ↦ absurd hkey List.not_mem_nil
  | some p =>
    obtain ⟨f, _, hread⟩ := Option.bind_eq_some_iff.mp hproject
    exact further_of_decodeProject? hread

/-- What is required of the project that is read holds of the initial one, if there is none. -/
theorem Workbook.unambiguous_project {functions : FunctionMap}
    (h : ∀ p, project? functions = some p → p.Unambiguous) :
    ((State.ofFunctions functions).project.getD Plan.initialProject).Unambiguous := by
  rw [State.ofFunctions]
  cases hproject : project? functions with
  | none => exact ⟨List.forall_mem_nil _, List.nodup_nil⟩
  | some p => exact h p hproject

namespace Batch

variable {s : State} {renames : RenameMaps} {batch checked : List Unpacked}

/-! ## Batches that are locked -/

/-- What is read of the lockfile for a batch has the integrities of its packages. -/
theorem agrees_rereadAll (hnames : (batch.map Unpacked.name).Nodup)
    (h : check s renames batch = .ok checked) :
    ∀ u ∈ batch, Agrees (Workbook.rereadAll (lockfile (checked.map (withAliases renames)))) u := by
  intro u hu entry hentry integrity hintegrity
  obtain ⟨functions, hlocked⟩ := exists_locked_of_check hnames h hu
  rw [Lockfile.get?, Workbook.rereadAll, OrderedMap.get?_map] at hentry
  obtain ⟨old, hold, rfl⟩ := Option.map_eq_some_iff.mp hentry
  cases hold.symm.trans hlocked
  exact (Option.some.inj (Workbook.integrity_of_mem_reread hintegrity)).symm

section

variable (hnames : (batch.map Unpacked.name).Nodup) (h : check s renames batch = .ok checked)
  {t : State}
  (hlockfile : t.lockfile = Workbook.rereadAll (lockfile (checked.map (withAliases renames))))

include hnames h hlockfile

/-- Functions of a checked batch belong to their packages where the lockfile for it is in force. -/
theorem owner?_of_checked {u : Unpacked} (hu : u ∈ checked) {name : String}
    (hname : u.functions.contains name = true) : t.lockfile.owner? name = some u.name := by
  have hlocked := get?_lockfile ((map_name_of_check h).symm ▸ hnames) (List.mem_map_of_mem hu)
  rw [name_withAliases] at hlocked
  rw [← contains_withAliases renames, ← OrderedMap.mem_keys_iff_contains] at hname
  have hnodup := nodup_ownedFunctions_lockfile ((checked_apart h).1.withAliases renames)
  rw [← Workbook.ownedFunctions_rereadAll] at hnodup
  rw [hlockfile]
  apply (Lockfile.owner?_eq_some_iff hnodup).mpr
  rw [Workbook.claims_rereadAll]
  exact Lockfile.mem_claims_iff.mpr ⟨_, hlocked, hname⟩

/-- Under the same aliases the batch can be checked again there. -/
theorem check_again : check t renames batch = .ok checked :=
  checked_again h fun _ hu _ hname _ ↦ owner?_of_checked hnames h hlockfile hu hname

end

end Batch

namespace Plan

variable {σ : Type} {supply : Supply (StateM σ)} {start now : σ} {functions : FunctionMap}
  {p q : Plan}

/-! ## The state after a plan -/

/-- The state of a workbook in which a plan for it has been carried out. -/
def outcome (p : Plan) (functions : FunctionMap) : State :=
  State.ofFunctions (Change.applyAll functions (p.changes (State.ofFunctions functions)))

theorem lockfile_outcome_of_listable (hnodup : p.lockfile.ownedFunctions.Nodup)
    (hlistable : ∀ entry ∈ p.lockfile.packages.values, Workbook.Listable entry.functions) :
    (p.outcome functions).lockfile = Workbook.rereadAll p.lockfile := by
  have hread := decodeLockfile?_planned (State.ofFunctions functions) p
  rw [Workbook.decodeLockfile?_of_listable hlistable hnodup, Option.some.injEq] at hread
  exact hread.symm

theorem lockfile_outcome (hnodup : p.lockfile.ownedFunctions.Nodup)
    (hstorable : ∀ name ∈ p.lockfile.ownedFunctions, Storable name) :
    (p.outcome functions).lockfile = Workbook.rereadAll p.lockfile :=
  lockfile_outcome_of_listable hnodup (Workbook.listable_functions hstorable)

theorem project_outcome (functions : FunctionMap) (p : Plan) : (p.outcome functions).project =
    Workbook.decodeProject? (Workbook.encodeProject p.project).definition := by
  have hchanged : Change.applyAll functions (p.changes (State.ofFunctions functions)) = _ :=
    applyAll_changes (State.ofFunctions functions) p
  rw [outcome, State.ofFunctions, Workbook.project?, hchanged, OrderedMap.get?_insert,
    if_neg (by decide), OrderedMap.get?_insert, if_pos rfl, Option.bind_some]

/-- The plan `q` for a state in which `p` has been carried out asks for the same functions and
packages, and changes nothing but the functions that keep the project and the lockfile. -/
structure Repeats (p q : Plan) (s : State) : Prop where
  functions : q.functions = p.functions
  lockfile : q.lockfile = p.lockfile
  obsolete : q.obsolete = []
  removed : q.removed = []
  bookkeeping : ∀ c ∈ q.changes s, ∃ f, c = .update f ∧ Function.isReserved f.name = true

/-- A plan for the same functions finds each of them there with its fingerprint, apart from ones
that have been overwritten by the project or the lockfile. -/
theorem bookkeeping_of_functions_eq (hkeyed : Keyed p.functions)
    (hfunctions : q.functions = p.functions) (hobsolete : q.obsolete = []) :
    ∀ c ∈ q.changes (p.outcome functions),
      ∃ f, c = .update f ∧ Function.isReserved f.name = true := by
  have hproject : Function.isReserved Function.projectName = true := by decide
  have hlock : Function.isReserved Function.lockName = true := by decide
  have hcarried := carriedOut_changes (State.ofFunctions functions) hkeyed
  have hdeleted : q.deleted = [] := by rw [deleted, hobsolete, List.filter_nil]
  rw [changes, hdeleted, List.map_nil, List.nil_append]
  intro c hc
  rcases List.mem_append.mp hc with hwritten | hrecord
  · obtain ⟨⟨name, f⟩, hentry, hwriting⟩ := List.mem_filterMap.mp hwritten
    rw [hfunctions] at hentry
    have hf := OrderedMap.get?_eq_some_iff.mpr hentry
    cases hreserved : Function.isReserved name with
    | true =>
      have hthere : (p.outcome functions).functions.contains name = true :=
        hcarried.contains_of_isReserved hreserved
      refine ⟨f, eq_update_of_writing? hthere hwriting, ?_⟩
      rw [hkeyed name f hf, hreserved]
    | false =>
      obtain ⟨found, hfound, hsame⟩ := exists_written_of_provided (s := State.ofFunctions functions)
        hkeyed hf
      rw [← get?_applyAll_changes hreserved] at hfound
      have hunwritten := writing?_of_fingerprint_eq (s := p.outcome functions) hfound hsame
      cases hunwritten.symm.trans hwriting
  · rcases List.mem_cons.mp hrecord with rfl | hlast
    · exact ⟨_, rfl, hproject⟩
    · exact ⟨_, List.mem_singleton.mp hlast, hlock⟩

/-! ## Plans for batches -/

/-- When the batch of a plan is planned for once more, nothing that is owned by then is obsolete. -/
theorem repeats_plan {s : State} {project other : Project} {batch : List Unpacked}
    (hkeyed : Keyed (Batch.plan s project batch).functions)
    (hlockfile : ((Batch.plan s project batch).outcome functions).lockfile =
      Workbook.rereadAll (Batch.lockfile batch)) :
    let t := (Batch.plan s project batch).outcome functions
    (Batch.plan s project batch).Repeats (Batch.plan t other batch) t := by
  intro t
  have hobsolete : (Batch.plan t other batch).obsolete = [] := by
    refine List.eq_nil_iff_forall_not_mem.mpr fun name hname ↦ ?_
    obtain ⟨howned, hmissing⟩ := List.mem_filter.mp (Batch.mem_distinct.mp hname)
    rw [hlockfile, Workbook.ownedFunctions_rereadAll] at howned
    rw [Batch.contains_functions_of_owned howned] at hmissing
    cases hmissing
  constructor
  case functions => rfl
  case lockfile => rfl
  case obsolete => exact hobsolete
  case removed =>
    refine List.filter_eq_nil_iff.mpr fun name hname ↦ ?_
    rw [hlockfile, OrderedMap.mem_keys_iff_contains, OrderedMap.contains, Workbook.rereadAll,
      OrderedMap.get?_map, Option.isSome_map] at hname
    rw [Lockfile.contains, OrderedMap.contains, hname]
    exact Bool.false_ne_true
  case bookkeeping => exact bookkeeping_of_functions_eq hkeyed rfl hobsolete

/-! ## Installing again -/

/-- The project of a workbook, or the initial one, with some requirements put in. -/
def required (s : State) (ds : List Dependency) : Project :=
  ds.foldl Project.upsert (s.project.getD initialProject)

/-- What an installation makes on its way: the requirements that the targets mean, the packages that
the project then selects, and these packages unpacked and under their final names. All that is drawn
for it can be drawn again from `now` on. -/
structure Installs (supply : Supply (StateM σ)) (now : σ) (limit : Nat) (s : State)
    (targets : List Target) (renames : RenameMaps) (ds : List Dependency)
    (selection : List Selected) (batch checked : List Unpacked) : Prop where
  means : List.Forall₂ (fun target ↦ supply.Always now (requirementOf supply target)) targets ds
  selects : supply.Always now (Selected.ofProject supply limit (required s ds) []) selection
  unpacks : List.Forall₂ (Batch.Unpacks (Batch.Keeps supply now)) selection batch
  checks : Batch.check s renames batch = .ok checked

theorem leads_install (hsteady : supply.Steady start) (limit : Nat) (s : State)
    (targets : List Target) (renames : RenameMaps) :
    supply.Leads start (install supply limit s targets renames) fun now p ↦
      ∃ ds selection batch checked,
        Installs supply now limit s targets renames ds selection batch checked ∧
          p = Batch.plan s (required s ds) (checked.map (Batch.withAliases renames)) := by
  have hmeans := leads_declare
    (fun now hnow target ↦ repeatable_requirementOf hsteady target now hnow)
    (fun target d ↦ Supply.Always.lasts _ d) (s.project.getD initialProject) targets .start
  refine hmeans.bind fun first p hfirst hp ↦ ?_
  obtain ⟨ds, hds, rfl⟩ := hp
  have hselects := Selected.repeatable_ofProject hsteady limit (required s ds) [] first hfirst
  refine hselects.bind fun second selection hsecond hselection ↦ ?_
  have hplans := Batch.leads_planOf (Batch.fetching_keeps hsteady s.lockfile) (required s ds)
    selection renames (hfirst.trans hsecond)
  refine hplans.imp fun last made hlast hmade ↦ ?_
  obtain ⟨batch, checked, hunpacks, hchecks, rfl⟩ := hmade
  refine ⟨ds, selection, batch, checked, ⟨?_, ?_, hunpacks, hchecks⟩, rfl⟩
  · exact hds.imp fun target d hd ↦ Supply.Always.lasts _ d first last (hsecond.trans hlast) hd
  · exact Supply.Always.lasts _ selection second last hlast hselection

namespace Installs

variable {limit : Nat} {s : State} {targets : List Target} {renames : RenameMaps}
  {ds : List Dependency} {selection : List Selected} {batch checked : List Unpacked}

theorem recorded (h : Installs supply now limit s targets renames ds selection batch checked)
    (hnow : supply.Reached start now)
    (htargets : ∀ target ∈ targets, Recordable supply start target) : ∀ d ∈ ds, d.Recorded :=
  recorded_of_mean htargets (h.means.imp fun _ _ hd ↦ hd.yields hnow)

theorem keyed (h : Installs supply now limit s targets renames ds selection batch checked)
    (hnow : supply.Reached start now) (hsupply : supply.Keyed start) (p : Project) :
    Keyed (Batch.plan s p (checked.map (Batch.withAliases renames))).functions := by
  obtain ⟨_, _, _, hsupplied⟩ :=
    (Selected.ofProject_spec limit _ []).of_yields (h.selects.yields hnow)
  refine Batch.keyed_plan (Batch.forall_of_unpacks h.unpacks fun selected hmem u hu ↦ ?_) h.checks
  have hunpacks : Batch.Unpacks (Batch.Fetches supply start {}) selected u := by
    refine hu.imp fun name version a ha ↦ ?_
    refine (ha.always_fetch fun integrity hintegrity ↦ ?_).yields hnow
    -- Nothing is expected against an empty lockfile.
    obtain ⟨entry, hentry, _⟩ := Batch.exists_of_lockedIntegrity? hintegrity
    cases hentry
  exact hunpacks.keyed hsupply (hsupplied selected hmem)

/-- The packages have different names when no two requirements of the project are on one package. -/
theorem nodup (h : Installs supply now limit s targets renames ds selection batch checked)
    (hnodup : (Project.packages (required s ds).dependencies).Nodup) :
    (batch.map Unpacked.name).Nodup := by
  obtain ⟨read, hread, hselection, _⟩ :=
    (Selected.ofProject_spec limit _ []).of_yields (h.selects.yields .start)
  rw [Batch.Unpacks.map_name h.unpacks]
  apply hselection
  rw [Project.map_name_of_requirements hread]
  exact hnodup

/-- A project with the same requirements selects the same packages. -/
theorem selects_again (h : Installs supply now limit s targets renames ds selection batch checked)
    {p : Project} (hproject : p.dependencies = (required s ds).dependencies) :
    supply.Always now (Selected.ofProject supply limit p []) selection := by
  rw [Selected.ofProject_congr hproject]
  exact h.selects

/-- In a state in which the project comes to the same requirements and the batch can be checked, the
installation can be repeated. -/
theorem always (h : Installs supply now limit s targets renames ds selection batch checked)
    {t : State} (hproject : (required t ds).dependencies = (required s ds).dependencies)
    (hagrees : ∀ u ∈ batch, Batch.Agrees t.lockfile u)
    (hchecks : Batch.check t renames batch = .ok checked) :
    supply.Always now (install supply limit t targets renames)
      (Batch.plan t (required t ds) (checked.map (Batch.withAliases renames))) :=
  (always_declare h.means _).bind
    ((h.selects_again hproject).bind (Batch.always_planOf h.unpacks hagrees hchecks _))

end Installs

/-- Requirements put into a project that had been written with them are the same as then. -/
theorem dependencies_required_outcome
    (hbefore : ∀ project, Workbook.project? functions = some project → project.Unambiguous)
    {ds : List Dependency} (hds : ∀ d ∈ ds, d.Recorded)
    (hp : p.project = required (State.ofFunctions functions) ds) :
    (required (p.outcome functions) ds).dependencies =
      (required (State.ofFunctions functions) ds).dependencies := by
  obtain ⟨read, hread, hdependencies⟩ := Project.exists_read_upserted
    (Workbook.further_project functions) (Workbook.unambiguous_project hbefore).storable hds
  have hproject : (p.outcome functions).project = some read := by
    rw [project_outcome, hp]
    exact hread
  rw [required, hproject]
  exact hdependencies

/-- An installation that is repeated where the first one has left the workbook and the supply
succeeds with the same functions and the same lockfile, and writes only the project and the
lockfile. -/
theorem install_again (hsteady : supply.Steady start) (hsupply : supply.Keyed start) {limit : Nat}
    {targets : List Target} {renames : RenameMaps} {next : σ}
    (h : (install supply limit (State.ofFunctions functions) targets renames).run.run start =
      (.ok p, next))
    (hnames : ∀ name ∈ p.lockfile.ownedFunctions, Storable name)
    (hbefore : ∀ project, Workbook.project? functions = some project → project.Unambiguous)
    (htargets : ∀ target ∈ targets, Recordable supply start target) :
    ∃ q last, (install supply limit (p.outcome functions) targets renames).run.run next =
      (.ok q, last) ∧ p.Repeats q (p.outcome functions) := by
  obtain ⟨hnext, hplan⟩ :=
    leads_install hsteady limit (State.ofFunctions functions) targets renames
  rw [h] at hnext hplan
  obtain ⟨ds, selection, batch, checked, hinstalls, hp⟩ := hplan p rfl
  have hrecorded := hinstalls.recorded hnext htargets
  have hlockfile : (p.outcome functions).lockfile = Workbook.rereadAll p.lockfile :=
    lockfile_outcome (nodup_of_install (congrArg Prod.fst h)) hnames
  have hnodup : (batch.map Unpacked.name).Nodup := by
    apply hinstalls.nodup
    rw [required, Project.foldl_upsert]
    exact Project.nodup_packages_putAll hrecorded (Workbook.unambiguous_project hbefore).nodup
  have hdependencies := dependencies_required_outcome hbefore hrecorded (congrArg project hp)
  have hlocked : (p.outcome functions).lockfile = Workbook.rereadAll
      (Batch.lockfile (checked.map (Batch.withAliases renames))) := by
    rw [hlockfile, hp]
    rfl
  have hagrees : ∀ u ∈ batch, Batch.Agrees (p.outcome functions).lockfile u := by
    rw [hlocked]
    exact Batch.agrees_rereadAll hnodup hinstalls.checks
  have hagain := hinstalls.always hdependencies hagrees
    (Batch.check_again hnodup hinstalls.checks hlocked)
  have hkeyed := hinstalls.keyed hnext hsupply (required (State.ofFunctions functions) ds)
  refine ⟨_, _, Prod.ext (hagain next .start).2 rfl, ?_⟩
  rw [hp] at hlocked ⊢
  exact repeats_plan hkeyed hlocked

end Plan

/-! ## A requirement that is replaced -/

theorem steady_offline : offline.supply.Steady offline.start where
  index := .throw
  archive _ _ := .throw
  locate path := .pure path
  file _ := .pure colorsArchive

/-- A workbook with a function of the user's and a project that requires an older archive. -/
def studio : FunctionMap :=
  .ofList [("MIX", { name := "MIX", definition := "=1" }),
    (Function.projectName, Workbook.encodeProject {
      name := "studio"
      version := "1.0.0"
      dependencies := ["colors@file:/old/colors.gspkg"]
      extra := .ofList [("license", .text "MIT")] })]

theorem unambiguous_studio {p : Project} (h : Workbook.project? studio = some p) :
    p.Unambiguous := by
  have hread : (Workbook.project? studio).map Project.dependencies =
      some ["colors@file:/old/colors.gspkg"] := by decide +kernel
  rw [h, Option.map_some, Option.some.injEq] at hread
  constructor
  · rw [hread]
    decide
  · rw [hread]
    decide +kernel

/-- A new archive is installed twice, with an alias for the function whose name is in use. -/
theorem Plan.install_again_studio :
    let targets := [Target.archive "/colors.gspkg"]
    let renames := Alias.addSpec .empty ⟨"colors", "MIX", "BLEND"⟩
    ∃ p, ((install offline.supply offline.limit (State.ofFunctions studio) targets
        renames).run.run offline.start) = (.ok p, ()) ∧
      p.lockfile.ownedFunctions = ["BLEND", "TINT"] ∧
      ∃ q last, (install offline.supply offline.limit (p.outcome studio) targets
        renames).run.run () = (.ok q, last) ∧ p.Repeats q (p.outcome studio) := by
  intro targets renames
  have hplan : (((install offline.supply offline.limit (State.ofFunctions studio) targets
      renames).run.run offline.start).1.toOption.map fun p ↦ p.lockfile.ownedFunctions) =
      some ["BLEND", "TINT"] := by decide +kernel
  obtain ⟨p, hp, howned⟩ := Option.map_eq_some_iff.mp hplan
  have hfirst : (install offline.supply offline.limit (State.ofFunctions studio) targets
      renames).run.run offline.start = (.ok p, ()) :=
    Prod.ext (toOption_eq_some_iff.mp hp) (Subsingleton.elim _ _)
  refine ⟨p, hfirst, howned, ?_⟩
  refine install_again steady_offline orderly_offline.keyed hfirst ?_
    (fun _ ↦ unambiguous_studio) ?_
  · rw [howned]
    decide
  · intro target htarget
    rw [List.mem_singleton.mp htarget]
    exact recordable_colors

end SheetPackages
