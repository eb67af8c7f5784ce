import SheetPackages.Plan.Install
import SheetPackages.Plan.Removal
import SheetPackages.Proofs.Plan.Batch

/-!
# Plans that fit a workbook

What every plan of an installation, an upgrade or a removal has in common: it owns each function
once, it writes only functions that it owns, none of which is the user's, it deletes only functions
that packages owned, and each of these is owned again or deleted. How a plan is carried out is shown
elsewhere.
-/

namespace SheetPackages

open Workbook (Storable)

/-- The workbook keeps an orderly project, if any, and its packages own functions that are storable,
not reserved, and owned once. -/
structure Workbook.State.Orderly (s : Workbook.State) : Prop where
  project : ∀ p, s.project = some p → p.Orderly
  exclusive : s.lockfile.ownedFunctions.Nodup
  names : ∀ name ∈ s.lockfile.ownedFunctions,
    Storable name ∧ Function.isReserved name = false

/-- The plan takes a workbook to one where functions have at most one owner and no function is left
without one, and it leaves alone what no package owns. -/
structure Plan.Fits (s : Workbook.State) (p : Plan) : Prop where
  project : p.project.Orderly
  keyed : Keyed p.functions
  exclusive : p.lockfile.ownedFunctions.Nodup
  names : ∀ name ∈ p.lockfile.ownedFunctions,
    Storable name ∧ Function.isReserved name = false
  claimed : ∀ name, p.functions.contains name = true → name ∈ p.lockfile.ownedFunctions
  permitted : ∀ name, p.functions.contains name = true → s.functions.contains name = true →
    name ∈ s.lockfile.ownedFunctions
  obsolete : ∀ name ∈ p.obsolete, name ∈ s.lockfile.ownedFunctions
  provided : ∀ name ∈ p.lockfile.ownedFunctions, p.functions.contains name = true ∨
    name ∈ s.lockfile.ownedFunctions ∧ name ∉ p.obsolete
  remaining : ∀ name ∈ s.lockfile.ownedFunctions,
    name ∈ p.obsolete ∨ name ∈ p.lockfile.ownedFunctions

/-- A function that no package owns is neither written nor deleted, nor owned afterwards. -/
theorem Plan.Fits.spares {s : Workbook.State} {p : Plan} (hp : p.Fits s) {name : String}
    (hthere : s.functions.contains name = true) (hfree : name ∉ s.lockfile.ownedFunctions) :
    p.functions.contains name = false ∧ name ∉ p.obsolete ∧
      name ∉ p.lockfile.ownedFunctions := by
  have hnew : ¬p.functions.contains name = true :=
    fun hwritten ↦ hfree (hp.permitted name hwritten hthere)
  refine ⟨Bool.not_eq_true _ ▸ hnew, fun hmem ↦ hfree (hp.obsolete name hmem), fun hname ↦ ?_⟩
  rcases hp.provided name hname with hwritten | ⟨hold, _⟩
  · exact hnew hwritten
  · exact hfree hold

/-! ## Batches -/

theorem Batch.fits_plan {s : Workbook.State} {p : Project} (hp : p.Orderly) {batch : List Unpacked}
    (h : Final s batch) : (plan s p batch).Fits s := by
  have howned {name : String} : name ∈ (lockfile batch).ownedFunctions ↔
      (functions batch).contains name = true :=
    mem_ownedFunctions_iff_contains h.names
  constructor
  case project => exact hp
  case keyed => exact keyed_functions fun u hu ↦ (h.installable u hu).keyed
  case exclusive => exact nodup_ownedFunctions_lockfile h.apart
  case names =>
    intro name hname
    obtain ⟨u, hu, hthere⟩ := (mem_ownedFunctions_lockfile h.names).mp hname
    exact (h.installable u hu).names name hthere
  case claimed => exact fun name hname ↦ howned.mpr hname
  case permitted =>
    intro name hname hthere
    obtain ⟨u, hu, hnew⟩ := contains_functions.mp hname
    exact (h.installable u hu).permitted name hnew hthere
  case obsolete => exact fun name hname ↦ (mem_obsolete_plan.mp hname).1
  case provided => exact fun name hname ↦ .inl (howned.mp hname)
  case remaining =>
    intro name hname
    cases hnew : (functions batch).contains name with
    | true => exact .inr (howned.mpr hnew)
    | false => exact .inl (mem_obsolete_plan.mpr ⟨hname, hnew⟩)

variable {σ : Type} {supply : Supply (StateM σ)} {start : σ} {renames : RenameMaps}
  {s : Workbook.State}

theorem Batch.fits_planOf (hsupply : supply.Orderly start) {p : Project} (hp : p.Orderly)
    {selection : List Selected} (hnames : (selection.map Selected.name).Nodup)
    (hselection : ∀ selected ∈ selection, Selected.Supplied supply start selected)
    (hrenames : ValidAliases renames) :
    supply.Ensures start (planOf supply s p selection renames) (·.Fits s) := by
  refine (planOf_spec s p selection renames).imp fun made h ↦ ?_
  obtain ⟨batch, checked, hbatch, hchecked, rfl⟩ := h
  refine fits_plan hp (final_of_check hrenames ?_ ?_ hchecked)
  · rw [Unpacks.map_name hbatch]
    exact hnames
  · exact forall_of_unpacks hbatch fun selected hmem _ h ↦
      h.orderly hsupply (hselection selected hmem)

/-! ## Installing and upgrading -/

namespace Plan

theorem requirementOf_spec (target : Target) :
    supply.Ensures start (requirementOf supply target) fun d ↦
      (∃ text, Dependency.parse text = .ok d) ∨
        ∃ name path, Package.isValidName name = true ∧ d = .onArchive name path := by
  cases target with
  | requirement text => exact .except fun d hd ↦ .inl ⟨text, Resolution.read_eq_ok_iff.mp hd⟩
  | archive path =>
    refine (Supply.ensures_locate path).bind fun found _ ↦ ?_
    refine (Supply.ensures_file found).bind fun a _ ↦ ?_
    simp only
    split
    · next hname => exact .pure (.inr ⟨_, found, hname, rfl⟩)
    · exact .throw

/-- Whatever requirement the target is found to mean has a text that list cells keep, and a
specifier that can be told from the name. -/
def Recordable (supply : Supply (StateM σ)) (start : σ) (target : Target) : Prop :=
  ∀ d, supply.Yields start (requirementOf supply target) d → Storable d.text ∧ d.Separable

theorem Recordable.recorded {target : Target} (h : Recordable supply start target) {d : Dependency}
    (hd : supply.Yields start (requirementOf supply target) d) : d.Recorded := by
  obtain ⟨hstorable, hseparable⟩ := h d hd
  rcases (requirementOf_spec target).of_yields hd with ⟨text, hparse⟩ | ⟨name, path, hname, rfl⟩
  · exact Dependency.recorded_of_parse hparse hstorable hseparable
  · exact Dependency.recorded_onArchive hname hstorable

/-- The requirements that targets are found to mean are put into the project one after the other. -/
theorem leads_declare {meant : σ → Target → Dependency → Prop}
    (hleads : ∀ s, supply.Reached start s → ∀ target,
      supply.Leads s (requirementOf supply target) (meant · target))
    (hlasts : ∀ target d, supply.Lasts (meant · target d)) (p : Project) (targets : List Target)
    {s : σ} (hs : supply.Reached start s) :
    supply.Leads s (declare supply p targets) fun after q ↦
      ∃ ds, List.Forall₂ (meant after) targets ds ∧ q = ds.foldl Project.upsert p := by
  induction targets generalizing p s with
  | nil => exact .pure ⟨[], .nil, rfl⟩
  | cons target rest ih =>
    refine (hleads s hs target).bind fun between d hbetween hd ↦ ?_
    refine (ih (p.upsert d) (hs.trans hbetween)).imp fun after q hafter hq ↦ ?_
    obtain ⟨ds, hds, rfl⟩ := hq
    exact ⟨d :: ds, .cons (hlasts target d between after hafter hd) hds, rfl⟩

/-- The targets mean these requirements. -/
def Mean (supply : Supply (StateM σ)) (start : σ) : List Target → List Dependency → Prop :=
  List.Forall₂ fun target d ↦ supply.Yields start (requirementOf supply target) d

theorem recorded_of_mean {targets : List Target}
    (htargets : ∀ target ∈ targets, Recordable supply start target) {ds : List Dependency}
    (h : Mean supply start targets ds) : ∀ d ∈ ds, d.Recorded := by
  intro d hd
  obtain ⟨target, htarget, hmeant⟩ := exists_of_mem_right h hd
  exact (htargets target htarget).recorded hmeant

theorem declare_spec (p : Project) (targets : List Target) :
    supply.Ensures start (declare supply p targets) fun q ↦
      ∃ ds, Mean supply start targets ds ∧ q = ds.foldl Project.upsert p :=
  fun _ hs ↦ leads_declare (fun s hs target ↦ (requirementOf_spec target).yields s hs)
    (fun _ _ _ _ _ h ↦ h) p targets hs

theorem orderly_declare {targets : List Target}
    (htargets : ∀ target ∈ targets, Recordable supply start target) {p : Project}
    (hp : p.Orderly) : supply.Ensures start (declare supply p targets) Project.Orderly := by
  refine (declare_spec p targets).imp fun q hq ↦ ?_
  obtain ⟨ds, hds, rfl⟩ := hq
  exact hp.upsertAll (recorded_of_mean htargets hds)

/-- The parts of an installation. -/
theorem install_spec (limit : Nat) (s : Workbook.State) (targets : List Target)
    (renames : RenameMaps) :
    supply.Ensures start (install supply limit s targets renames) fun made ↦ ∃ p selection,
      supply.Yields start (declare supply (s.project.getD initialProject) targets) p ∧
        supply.Yields start (Selected.ofProject supply limit p []) selection ∧
        supply.Yields start (Batch.planOf supply s p selection renames) made := by
  refine (declare_spec _ targets).yields.bind fun p hp ↦ ?_
  refine (Selected.ofProject_spec limit p []).yields.bind fun selection hselection ↦ ?_
  exact (Batch.planOf_spec s p selection renames).yields.imp fun made hmade ↦
    ⟨p, selection, hp, hselection, hmade⟩

theorem fits_install (hsupply : supply.Orderly start) (limit : Nat) (hs : s.Orderly)
    {targets : List Target} (htargets : ∀ target ∈ targets, Recordable supply start target)
    (hrenames : ValidAliases renames) :
    supply.Ensures start (install supply limit s targets renames) (·.Fits s) := by
  have hbefore : (s.project.getD initialProject).Orderly := by
    cases hproject : s.project with
    | none => exact Project.orderly_initial
    | some q => exact hs.project q hproject
  refine (install_spec limit s targets renames).imp fun made h ↦ ?_
  obtain ⟨p, selection, hdeclared, hselection, hmade⟩ := h
  have hp : p.Orderly := (orderly_declare htargets hbefore).of_yields hdeclared
  obtain ⟨hnames, hsupplied⟩ := (Selected.nodup_ofProject hp limit []).of_yields hselection
  exact (Batch.fits_planOf hsupply hp hnames hsupplied hrenames).of_yields hmade

theorem project_of_needProject {p : Project} (h : s.needProject = .ok p) : s.project = some p := by
  rw [Workbook.State.needProject] at h
  split at h
  · next q hq =>
    cases h
    exact hq
  · cases h

theorem upgraded_eq_ok {l : Lockfile} {targets roots : List String}
    (h : upgraded l targets = .ok roots) :
    roots = if targets = [] then l.packages.keys else targets := by
  cases targets with
  | nil => exact (Except.ok.inj h).symm
  | cons target rest =>
    rw [upgraded, List.isEmpty_cons, if_neg Bool.false_ne_true] at h
    rw [if_neg (List.cons_ne_nil target rest)]
    split at h
    · cases h
    · exact (Except.ok.inj h).symm

/-- The requirements that keep packages at their locked versions while the targets of an upgrade and
what these depend on may move. -/
def pins (l : Lockfile) (targets : List String) : List Dependency :=
  let movable := l.closure (if targets = [] then l.packages.keys else targets)
  l.packages.entries.filterMap fun (name, entry) ↦ pin? movable name entry

/-- The parts of an upgrade. -/
theorem upgrade_spec (limit : Nat) (s : Workbook.State) (targets : List String)
    (renames : RenameMaps) :
    supply.Ensures start (upgrade supply limit s targets renames) fun u ↦
      ∃ p selection, s.project = some p ∧
        supply.Yields start (Selected.ofProject supply limit p (pins s.lockfile targets))
          selection ∧
        u.versions = newVersions s.lockfile selection ∧ ∀ made, u.plan = some made →
          supply.Yields start (Batch.planOf supply s p selection renames) made := by
  refine (Supply.Ensures.except fun p h ↦ project_of_needProject h).bind fun p hp ↦ ?_
  refine (Supply.Ensures.except fun _ h ↦ upgraded_eq_ok h).bind fun roots hroots ↦ ?_
  subst hroots
  refine (Selected.ofProject_spec limit p _).yields.bind fun selection hselection ↦ ?_
  simp only
  split
  · exact .pure ⟨p, selection, hp, hselection, rfl, fun _ h ↦ nomatch h⟩
  · refine (Batch.planOf_spec s p selection renames).yields.bind fun made hmade ↦
      .pure ⟨p, selection, hp, hselection, rfl, fun plan heq ↦ ?_⟩
    cases heq
    exact hmade

theorem fits_upgrade (hsupply : supply.Orderly start) (limit : Nat) (hs : s.Orderly)
    (targets : List String) (hrenames : ValidAliases renames) :
    supply.Ensures start (upgrade supply limit s targets renames) fun u ↦
      ∀ plan, u.plan = some plan → plan.Fits s := by
  refine (upgrade_spec limit s targets renames).imp fun u h plan hplan ↦ ?_
  obtain ⟨p, selection, hproject, hselection, _, hmade⟩ := h
  have hp := hs.project p hproject
  obtain ⟨hnames, hsupplied⟩ := (Selected.nodup_ofProject hp limit _).of_yields hselection
  exact (Batch.fits_planOf hsupply hp hnames hsupplied hrenames).of_yields (hmade plan hplan)

/-! ## Removing -/

/-- Taking packages out of a lockfile divides its functions between them and the ones that stay. -/
theorem perm_ownedFunctions (l : Lockfile) (kept : List String) :
    ((Lockfile.mk (l.packages.filter fun name _ ↦ name ∈ kept)).ownedFunctions ++
      (l.packages.entries.filter fun entry ↦ entry.1 ∉ kept).flatMap
        fun entry ↦ entry.2.functions).Perm l.ownedFunctions := by
  have hkept : (Lockfile.mk (l.packages.filter fun name _ ↦ name ∈ kept)).ownedFunctions =
      (l.packages.entries.filter fun entry ↦ entry.1 ∈ kept).flatMap
        fun entry ↦ entry.2.functions := rfl
  rw [hkept, ← List.flatMap_append]
  apply List.Perm.flatMap_right
  simp only [decide_not]
  exact List.filter_append_perm _ l.packages.entries

/-- What a removal plans. -/
structure Removes (s : Workbook.State) (plan : Plan) : Prop where
  project : ∃ p names, s.project = some p ∧ plan.project = withoutAll p names
  functions : plan.functions = .empty
  perm : (plan.lockfile.ownedFunctions ++ plan.obsolete).Perm s.lockfile.ownedFunctions

theorem removes_of_removal {canonical : String → Option String} {targets : List String}
    {plan : Plan} (h : removal canonical s targets = .ok plan) : Removes s plan := by
  obtain ⟨p, hproject, h⟩ := exists_of_bind_eq_ok h
  obtain ⟨declared, _, h⟩ := exists_of_bind_eq_ok h
  obtain ⟨names, _, h⟩ := exists_of_bind_eq_ok h
  obtain ⟨needed, _, h⟩ := exists_of_bind_eq_ok h
  cases h
  exact ⟨⟨p, names, project_of_needProject hproject, rfl⟩, rfl, perm_ownedFunctions _ _⟩

/-- What is owned after a removal was owned before, and is not obsolete. -/
theorem Removes.of_mem_ownedFunctions {plan : Plan} (h : Removes s plan)
    (hs : s.lockfile.ownedFunctions.Nodup) {name : String}
    (hname : name ∈ plan.lockfile.ownedFunctions) :
    name ∈ s.lockfile.ownedFunctions ∧ name ∉ plan.obsolete := by
  obtain ⟨_, _, hdisjoint⟩ := List.nodup_append.mp (h.perm.nodup_iff.mpr hs)
  refine ⟨h.perm.mem_iff.mp (List.mem_append_left _ hname), fun hobsolete ↦ ?_⟩
  exact hdisjoint name hname name hobsolete rfl

theorem fits_removal (hs : s.Orderly) {canonical : String → Option String} {targets : List String}
    {plan : Plan} (h : removal canonical s targets = .ok plan) : plan.Fits s := by
  have hremoves := removes_of_removal h
  obtain ⟨p, names, hproject, hplan⟩ := hremoves.project
  have hold {name : String} (hname : name ∈ plan.lockfile.ownedFunctions) :=
    hremoves.of_mem_ownedFunctions hs.exclusive hname
  have hnone (name : String) : ¬plan.functions.contains name = true := by
    rw [hremoves.functions]
    exact Bool.false_ne_true
  constructor
  case project => exact hplan ▸ (hs.project p hproject).withoutAll names
  case keyed =>
    rw [hremoves.functions]
    exact fun _ _ hf ↦ nomatch hf
  case exclusive =>
    exact (List.nodup_append.mp (hremoves.perm.nodup_iff.mpr hs.exclusive)).1
  case names => exact fun name hname ↦ hs.names name (hold hname).1
  case claimed => exact fun name hname ↦ absurd hname (hnone name)
  case permitted => exact fun name hname ↦ absurd hname (hnone name)
  case obsolete =>
    exact fun name hname ↦ hremoves.perm.mem_iff.mp (List.mem_append_right _ hname)
  case provided => exact fun name hname ↦ .inr (hold hname)
  case remaining =>
    exact fun name hname ↦ (List.mem_append.mp (hremoves.perm.mem_iff.mpr hname)).symm

end Plan

end SheetPackages
