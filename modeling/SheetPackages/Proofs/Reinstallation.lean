import SheetPackages.Proofs.Repetition

/-!
# Reinstallation

A workbook in which packages have been installed is installed anew, without further targets. Aliases
are given to each installation and are not kept in the workbook. Under the aliases of the first
installation the second one succeeds. Without aliases it succeeds as well, unless the own name of a
function that had got an alias is in use by then, be it by a function of the user's or by one of
another package; functions that had kept their names are never in the way of their own package.

The supply has to be steady, list cells have to keep what the plan has written into them, and no two
requirements of the project may be on one package. Other aliases are not described here.
-/

namespace SheetPackages

open Workbook (Listable State)

/-- List cells keep the requirements and the functions of the plan, and no two of its requirements
are on one package. -/
structure Plan.Legible (p : Plan) : Prop where
  requirements : Listable p.project.dependencies
  functions : ∀ entry ∈ p.lockfile.packages.values, Listable entry.functions
  nodup : (Project.packages p.project.dependencies).Nodup

/-! ## Names in use -/

namespace Batch

/-- The name is in use: by a function of the workbook which the package does not own, or by a
function of another package. -/
def Occupied (t : State) (batch : List Unpacked) (u : Unpacked) (name : String) : Prop :=
  (t.functions.contains name = true ∧ t.lockfile.owner? name ≠ some u.name) ∨
    ∃ v ∈ batch, v.name ≠ u.name ∧ v.functions.contains name = true

/-- A function of the package has an alias, and its own name is in use. -/
structure Displaced (t : State) (renames : RenameMaps) (batch : List Unpacked) (u : Unpacked)
    (name : String) : Prop where
  brought : u.functions.contains name = true
  renamed : ((Alias.mapOf renames u.name).get? name).getD name ≠ name
  occupied : Occupied t batch u name

variable {s t : State} {renames : RenameMaps} {batch checked : List Unpacked}

/-- A batch can be checked without aliases when none of its names is in use. -/
theorem exists_check_empty_iff : (∃ result, check t .empty batch = .ok result) ↔
    ∀ u ∈ batch, ∀ name, u.functions.contains name = true → ¬Occupied t batch u name := by
  simp only [check_empty_eq_ok_iff, exists_eq_left]
  constructor
  · rintro ⟨hapart, howned⟩ u hu name hname (⟨hthere, hother⟩ | ⟨v, hv, hne, hboth⟩)
    · exact hother (howned u hu name hname hthere)
    · rw [hapart v hv u hu hne name hboth] at hname
      cases hname
  · intro hfree
    constructor
    · intro u hu v hv hne name hname
      rw [← Bool.not_eq_true]
      exact fun hboth ↦ hfree u hu name hname (.inr ⟨v, hv, hne.symm, hboth⟩)
    · intro u hu name hname hthere
      by_contra hother
      exact hfree u hu name hname (.inl ⟨hthere, hother⟩)

section

variable (hnames : (batch.map Unpacked.name).Nodup) (h : check s renames batch = .ok checked)
  (hlockfile : t.lockfile = Workbook.rereadAll (lockfile (checked.map (withAliases renames))))

include hnames h hlockfile

/-- Where a checked batch is in force, a name in use is that of a displaced function: functions that
have kept their names are owned by their packages, and no two packages have one in common. -/
theorem exists_displaced {u : Unpacked} (hu : u ∈ batch) {name : String}
    (hname : u.functions.contains name = true) (hoccupied : Occupied t batch u name) :
    ∃ v ∈ batch, Displaced t renames batch v name := by
  have hkept {w : Unpacked} (hw : w.functions.contains name = true)
      (hsame : ((Alias.mapOf renames w.name).get? name).getD name = name) :
      (aliased (Alias.mapOf renames w.name) w.functions).1.contains name = true := by
    have hfinal : (aliased (Alias.mapOf renames w.name) w.functions).1.contains
        (((Alias.mapOf renames w.name).get? name).getD name) = true := contains_aliased hw
    rwa [hsame] at hfinal
  by_cases hrenamed : ((Alias.mapOf renames u.name).get? name).getD name = name
  · rcases hoccupied with ⟨_, hother⟩ | ⟨v, hv, hne, hboth⟩
    · exact absurd (owner?_of_checked hnames h hlockfile (mem_of_checked h hu)
        (hkept hname hrenamed)) hother
    · refine ⟨v, hv, hboth, fun hsame ↦ ?_, .inr ⟨u, hu, hne.symm, hname⟩⟩
      have hnone := (checked_apart h).1 _ (mem_of_checked h hu) _ (mem_of_checked h hv) hne.symm
        name (hkept hname hrenamed)
      rw [hkept hboth hsame] at hnone
      cases hnone
  · exact ⟨u, hu, hname, hrenamed, hoccupied⟩

/-- Without aliases the batch can be checked where it is in force, unless a function is displaced. -/
theorem exists_check_empty_iff_of_check : (∃ result, check t .empty batch = .ok result) ↔
    ∀ u ∈ batch, ∀ name, ¬Displaced t renames batch u name := by
  rw [exists_check_empty_iff]
  constructor
  · exact fun hfree u hu name hdisplaced ↦ hfree u hu name hdisplaced.brought hdisplaced.occupied
  · intro hnone u hu name hname hoccupied
    obtain ⟨v, hv, hdisplaced⟩ := exists_displaced hnames h hlockfile hu hname hoccupied
    exact hnone v hv name hdisplaced

end

end Batch

/-! ## Installing without targets -/

namespace Plan

variable {σ : Type} {supply : Supply (StateM σ)} {start now : σ} {functions : FunctionMap}
  {p : Plan} {limit : Nat} {targets : List Target} {renames : RenameMaps}

/-- The project that is read has the requirements that were written. -/
theorem dependencies_outcome (hcontains : p.project.extra.contains "dependencies" = false)
    (hlistable : Listable p.project.dependencies) :
    (required (p.outcome functions) []).dependencies = p.project.dependencies := by
  obtain ⟨read, hread, hdependencies⟩ := Workbook.exists_decodeProject?_encodeProject hcontains
  rw [← project_outcome functions p] at hread
  rw [required, hread, ← Workbook.splitList_joinList_of_listable hlistable]
  exact hdependencies

/-- With the same requirements it only depends on the check whether the batch is installed. -/
theorem Installs.run_untargeted {s t : State} {ds : List Dependency} {selection : List Selected}
    {batch checked : List Unpacked}
    (h : Installs supply now limit s targets renames ds selection batch checked)
    (hproject : (required t []).dependencies = (required s ds).dependencies)
    (hagrees : ∀ u ∈ batch, Batch.Agrees t.lockfile u) (others : RenameMaps) :
    ((install supply limit t [] others).run.run now).1 =
      (Batch.check t others batch).map fun result ↦
        Batch.plan t (required t []) (result.map (Batch.withAliases others)) := by
  have hunpacks := Batch.always_ofSelection (Batch.forall₂_always_of_agrees h.unpacks hagrees)
  obtain ⟨first, hfirst, hselected⟩ := (h.selects_again hproject).run_bind
    (fun selection ↦ Batch.planOf supply t (required t []) selection others) .start
  obtain ⟨second, _, hunpacked⟩ := hunpacks.run_bind (fun batch ↦ do
    return Batch.plan t (required t [])
      ((← Batch.check t others batch).map (Batch.withAliases others))) hfirst
  refine (congrArg Prod.fst (hselected.trans hunpacked)).trans ?_
  cases Batch.check t others batch <;> rfl

/-- Once the plan of an installation has been carried out, installing without targets succeeds under
the same aliases. Without aliases it succeeds exactly if no function is displaced, and otherwise
fails with a collision. -/
theorem reinstall_spec (hsteady : supply.Steady start) {next : σ}
    (h : (install supply limit (State.ofFunctions functions) targets renames).run.run start =
      (.ok p, next))
    (hp : p.Legible) :
    ∃ ds selection batch checked,
      Installs supply next limit (State.ofFunctions functions) targets renames ds selection batch
        checked ∧
      (∃ q, ((install supply limit (p.outcome functions) [] renames).run.run next).1 = .ok q) ∧
      ((∃ q, ((install supply limit (p.outcome functions) [] .empty).run.run next).1 = .ok q) ↔
        ∀ u ∈ batch, ∀ name, ¬Batch.Displaced (p.outcome functions) renames batch u name) ∧
      ∀ fault,
        ((install supply limit (p.outcome functions) [] .empty).run.run next).1 = .error fault →
          ∃ package names, fault = .functionCollision package names := by
  obtain ⟨hnext, hplan⟩ :=
    leads_install hsteady limit (State.ofFunctions functions) targets renames
  rw [h] at hnext hplan
  obtain ⟨ds, selection, batch, checked, hinstalls, hmade⟩ := hplan p rfl
  have hrequired : p.project = required (State.ofFunctions functions) ds := congrArg project hmade
  have hcontains : p.project.extra.contains "dependencies" = false := by
    rw [hrequired, required, Project.foldl_upsert]
    exact (Workbook.further_project functions).contains
  have hproject : (required (p.outcome functions) []).dependencies =
      (required (State.ofFunctions functions) ds).dependencies := by
    rw [dependencies_outcome hcontains hp.requirements, hrequired]
  have hnames : (batch.map Unpacked.name).Nodup := hinstalls.nodup (hrequired ▸ hp.nodup)
  have hlocked : (p.outcome functions).lockfile = Workbook.rereadAll
      (Batch.lockfile (checked.map (Batch.withAliases renames))) := by
    rw [lockfile_outcome_of_listable (nodup_of_install (congrArg Prod.fst h)) hp.functions, hmade]
    rfl
  have hagrees : ∀ u ∈ batch, Batch.Agrees (p.outcome functions).lockfile u := by
    rw [hlocked]
    exact Batch.agrees_rereadAll hnames hinstalls.checks
  have hrun := hinstalls.run_untargeted hproject hagrees
  have hempty := Batch.exists_check_empty_iff_of_check hnames hinstalls.checks hlocked
  refine ⟨ds, selection, batch, checked, hinstalls, ?_, ?_, fun fault hfault ↦ ?_⟩
  · rw [hrun, Batch.check_again hnames hinstalls.checks hlocked]
    exact ⟨_, rfl⟩
  · rw [← hempty, hrun]
    cases Batch.check (p.outcome functions) .empty batch <;> simp [Except.map]
  · rw [hrun] at hfault
    exact Batch.eq_collision_of_checked (eq_error_of_map hfault)

/-! ## Collisions -/

/-- An archive of a package with some functions. -/
def archiveOf (package : String) (functions : List String) : Archive where
  project := { name := package }
  functions := .ofList (functions.map fun name ↦ (name, { name, definition := "=1" }))
  integrity := "sha256:0"

/-- Without a registry, but with an archive in every file. -/
def filed (file : String → Archive) : Supply (StateM Unit) :=
  { offline.supply with file := fun path ↦ pure (file path) }

theorem steady_filed (file : String → Archive) : (filed file).Steady () where
  index := .throw
  archive _ _ := .throw
  locate path := .pure path
  file path := .pure (file path)

/-- A workbook with one function, which is the user's. -/
def lone : FunctionMap :=
  .ofList [("F", { name := "F", definition := "=2" })]

/-- The function of the package is installed under an alias twice. -/
theorem reinstall_spec_lone :
    let supply := filed fun _ ↦ archiveOf "c" ["F"]
    let renames := Alias.addSpec .empty ⟨"c", "F", "G"⟩
    ∃ p, (install supply 100 (State.ofFunctions lone) [.archive "/c"] renames).run.run () =
        (.ok p, ()) ∧ p.lockfile.packages.values.map Locked.functions = [["G"]] ∧
      ∃ q, ((install supply 100 (p.outcome lone) [] renames).run.run ()).1 = .ok q := by
  intro supply renames
  have hplan : (((install supply 100 (State.ofFunctions lone) [.archive "/c"]
      renames).run.run ()).1.toOption.map fun p ↦
        (p.project.dependencies, p.lockfile.packages.values.map Locked.functions)) =
      some (["c@file:/c"], [["G"]]) := by decide +kernel
  obtain ⟨p, hfirst, hread⟩ := exists_of_map_toOption hplan
  obtain ⟨hdependencies, hfunctions⟩ := Prod.mk.inj hread
  have hlegible : p.Legible := by
    constructor
    · rw [hdependencies]
      decide
    · intro entry hentry
      have hlist : entry.functions ∈ [["G"]] := hfunctions ▸ List.mem_map_of_mem hentry
      rw [List.mem_singleton.mp hlist]
      decide
    · rw [hdependencies]
      decide +kernel
  have hrun : (install supply 100 (State.ofFunctions lone) [.archive "/c"] renames).run.run () =
      (.ok p, ()) := Prod.ext hfirst (Subsingleton.elim _ _)
  obtain ⟨_, _, _, _, _, hagain, _⟩ := reinstall_spec (steady_filed _) hrun hlegible
  exact ⟨p, hrun, hfunctions, hagain⟩

/-- The collision with which an installation without targets and aliases fails after one that has
succeeded. -/
def laterCollision? (supply : Supply (StateM Unit)) (functions : FunctionMap)
    (targets : List Target) (renames : RenameMaps) : Option (String × List String) :=
  match ((install supply 100 (State.ofFunctions functions) targets renames).run.run ()).1 with
  | .error _ => none
  | .ok p =>
    match ((install supply 100 (p.outcome functions) [] .empty).run.run ()).1 with
    | .error (.functionCollision package names) => some (package, names)
    | _ => none

/-- A workbook whose project has two requirements on one package. -/
def doubled : FunctionMap :=
  .ofList [(Function.projectName,
    Workbook.encodeProject { dependencies := ["c@file:/a", "c@file:/b"] })]

/-- A function that has got an alias is not found under it, two packages of one name leave functions
without an owner, and so do names that a list cell does not keep; requirements that it does not keep
bring in other packages. -/
theorem laterCollision?_eq_some :
    laterCollision? (filed fun _ ↦ archiveOf "c" ["F"]) lone [.archive "/c"]
        (Alias.addSpec .empty ⟨"c", "F", "G"⟩) = some ("c", ["F"]) ∧
      laterCollision? (filed fun path ↦ archiveOf "c" (if path = "/a" then ["F"] else ["G"])) doubled
        [] .empty = some ("c", ["F"]) ∧
      laterCollision? (filed fun _ ↦ archiveOf "c" ["A", "Ä"]) .empty [.archive "/c"] .empty =
        some ("c", ["A", "Ä"]) ∧
      laterCollision? (filed fun path ↦ if path = "/c" then archiveOf "c" ["F"] else archiveOf "d" [])
        lone [.archive "/d,c@file:/c"] .empty = some ("c", ["F"]) := by
  refine ⟨?_, ?_, ?_, ?_⟩ <;> decide +kernel

end Plan

end SheetPackages
