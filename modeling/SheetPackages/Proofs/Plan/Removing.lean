import SheetPackages.Plan.Removal
import SheetPackages.Proofs.Lockfile.Pruning
import SheetPackages.Proofs.Lockfile.Rounds
import SheetPackages.Proofs.Ownership
import SheetPackages.Proofs.Plan.Fitting
import SheetPackages.Proofs.Project.Upserting

/-!
# Removals

A removal drops the requirements that its targets mean and keeps what the other ones reach through
the lockfile as it was, whatever cycles and missing packages that has. Whether requirements are
dropped one after the other or together makes no difference: what fewer requirements reach was
reached before, so it is still there with all that it needs.

Targets that are paths are described only as far as each one means the name of some requirement.
-/

namespace SheetPackages

open Workbook (State)

/-! ## Requirements that stay -/

namespace Project

theorem ReadAs.remove {entries : List String} {ds : List Dependency} (h : ReadAs entries ds)
    (name : String) :
    ReadAs (entries.filter (!names name ·)) (ds.filter fun d ↦ !(d.name == name)) := by
  induction h with
  | nil => exact .nil
  | @cons entry d rest more hentry _ ih =>
    rw [List.filter_cons, List.filter_cons, names_of_parse hentry]
    by_cases hname : (d.name == name) = true
    · rw [hname]
      exact ih
    · rw [Bool.not_eq_true] at hname
      rw [hname]
      exact .cons hentry ih

/-- Without the requirements on some packages, the others stay in their order. -/
theorem requirements_withoutAll {p : Project} {ds : List Dependency} (h : p.requirements = .ok ds)
    (names : List String) :
    (Plan.withoutAll p names).requirements = .ok (ds.filter fun d ↦ d.name ∉ names) := by
  induction names generalizing p ds with
  | nil => simpa [Plan.withoutAll] using h
  | cons name rest ih =>
    have hremoved : (p.remove name).requirements = .ok (ds.filter fun d ↦ !(d.name == name)) :=
      requirements_eq_ok_iff.mpr ((requirements_eq_ok_iff.mp h).remove name)
    have hrest := ih hremoved
    rw [List.filter_filter] at hrest
    refine hrest.trans (congrArg Except.ok (List.filter_congr fun d _ ↦ ?_))
    simp only [List.mem_cons, not_or, Bool.decide_and, decide_not, beq_eq_decide, Bool.and_comm]

theorem withoutAll_append (p : Project) (first second : List String) :
    Plan.withoutAll p (first ++ second) = Plan.withoutAll (Plan.withoutAll p first) second :=
  List.foldl_append

theorem remove_comm (p : Project) (a b : String) :
    (p.remove a).remove b = (p.remove b).remove a := by
  simp only [remove, List.filter_filter, Bool.and_comm]

theorem withoutAll_of_perm {p : Project} {names others : List String} (h : names.Perm others) :
    Plan.withoutAll p names = Plan.withoutAll p others :=
  h.foldl_eq' (fun a _ b _ q ↦ remove_comm q a b) p

end Project

/-- No function belongs to two packages. -/
def Lockfile.Undisputed (l : Lockfile) : Prop :=
  ∀ function a b, (function, a) ∈ l.claims → (function, b) ∈ l.claims → a = b

theorem Lockfile.undisputed_of_nodup {l : Lockfile} (h : l.ownedFunctions.Nodup) :
    l.Undisputed := by
  intro function a b ha hb
  have howner := (owner?_eq_some_iff h).mpr ha
  rw [(owner?_eq_some_iff h).mpr hb] at howner
  exact (Option.some.inj howner).symm

/-! ## The planned removal -/

namespace Plan

variable {canonical : String → Option String} {s : State} {p : Project} {ds : List Dependency}

/-- The plan that drops the requirements on some packages, of the given ones. -/
def dropping (l : Lockfile) (p : Project) (ds : List Dependency) (names : List String) : Plan :=
  let roots := (ds.filter fun d ↦ d.name ∉ names).map Dependency.name
  { project := withoutAll p names
    lockfile := l.needed roots
    obsolete := (l.orphans roots).flatMap fun entry ↦ entry.2.functions
    removed := (l.orphans roots).map Prod.fst }

/-- A removal with names for its targets drops the requirements on these. -/
theorem removal_of_matched {targets names : List String} (hproject : s.project = some p)
    (hds : p.requirements = .ok ds) (hnames : matched canonical ds targets = .ok names) :
    removal canonical s targets = .ok (dropping s.lockfile p ds names) := by
  simp only [removal, State.needProject, hproject, pure, Except.pure, bind, Except.bind, hds,
    hnames, Project.requirements_withoutAll hds names]
  rfl

/-- A removal that succeeds has found a name for each target. -/
theorem exists_dropping_of_removal {targets : List String} {plan : Plan}
    (h : removal canonical s targets = .ok plan) :
    ∃ p ds names, s.project = some p ∧ p.requirements = .ok ds ∧
      matched canonical ds targets = .ok names ∧ plan = dropping s.lockfile p ds names := by
  have hremoval := h
  obtain ⟨p, hproject, h⟩ := exists_of_bind_eq_ok h
  obtain ⟨ds, hds, h⟩ := exists_of_bind_eq_ok h
  obtain ⟨names, hnames, _⟩ := exists_of_bind_eq_ok h
  have hplan := removal_of_matched (project_of_needProject hproject) hds hnames
  exact ⟨p, ds, names, project_of_needProject hproject, hds, hnames,
    Except.ok.inj (hremoval.symm.trans hplan)⟩

/-! ## What is kept -/

/-- Of the packages of a lockfile exactly those stay that some roots reach, as they were and in
their order, and the functions of the others go with them. -/
structure Prunes (l : Lockfile) (roots : List String) (plan : Plan) : Prop where
  kept : plan.lockfile.packages.entries.Sublist l.packages.entries
  kept_iff : ∀ name, plan.lockfile.contains name = true ↔
    l.contains name = true ∧ ∃ root ∈ roots, l.Reaches root name
  removed : plan.removed.Sublist l.packages.keys
  removed_iff : ∀ name, name ∈ plan.removed ↔
    l.contains name = true ∧ plan.lockfile.contains name = false
  obsolete_iff : ∀ function, function ∈ plan.obsolete ↔
    ∃ name ∈ plan.removed, ∃ entry, l.get? name = some entry ∧ function ∈ entry.functions
  spared : ∀ function ∈ plan.obsolete, function ∉ plan.lockfile.ownedFunctions

theorem prunes_dropping {l : Lockfile} (hl : l.Undisputed) (p : Project) (ds : List Dependency)
    (names : List String) :
    Prunes l ((ds.filter fun d ↦ d.name ∉ names).map Dependency.name) (dropping l p ds names) := by
  set roots := (ds.filter fun d ↦ d.name ∉ names).map Dependency.name
  constructor
  case kept => exact List.filter_sublist
  case kept_iff =>
    intro name
    rw [← Lockfile.mem_closure_iff]
    exact Lockfile.contains_needed
  case removed => exact List.filter_sublist.map Prod.fst
  case removed_iff =>
    intro name
    refine Lockfile.mem_map_fst_orphans.trans (and_congr_right fun hname ↦ ?_)
    rw [← Bool.not_eq_true]
    exact not_congr (Lockfile.contains_needed.trans (and_iff_right hname)).symm
  case obsolete_iff =>
    intro function
    simp only [dropping, List.mem_flatMap, List.mem_map, Prod.exists, exists_and_right,
      exists_eq_right]
    constructor
    · rintro ⟨name, entry, horphan, hfunction⟩
      exact ⟨name, ⟨entry, horphan⟩, entry, (Lockfile.mem_orphans.mp horphan).1, hfunction⟩
    · rintro ⟨name, ⟨_, horphan⟩, entry, hentry, hfunction⟩
      exact ⟨name, entry, Lockfile.mem_orphans.mpr ⟨hentry, (Lockfile.mem_orphans.mp horphan).2⟩,
        hfunction⟩
  case spared =>
    intro function hobsolete howned
    obtain ⟨⟨lost, entry⟩, horphan, hfunction⟩ := List.mem_flatMap.mp hobsolete
    obtain ⟨⟨kept, other⟩, hother, hshared⟩ := List.mem_flatMap.mp howned
    obtain ⟨hentry, hlost⟩ := Lockfile.mem_orphans.mp horphan
    obtain ⟨hother, hkept⟩ := Lockfile.get?_needed.mp (OrderedMap.get?_eq_some_iff.mpr hother)
    have hsame : lost = kept := hl function lost kept
      (Lockfile.mem_claims_iff.mpr ⟨entry, hentry, hfunction⟩)
      (Lockfile.mem_claims_iff.mpr ⟨other, hother, hshared⟩)
    exact hlost (hsame ▸ hkept)

/-- The walk that finds what is reached is over after as many rounds as there are roots and listed
dependencies. A removal that succeeds keeps exactly the packages that the remaining
requirements reach; the functions of the others are obsolete, and none of a kept package. -/
theorem removal_prunes (canonical : String → Option String) (s : State) (targets : List String) :
    (∀ roots, s.lockfile.round^[roots.length + s.lockfile.listed] ([], roots) =
      (s.lockfile.closure roots, [])) ∧
    ∀ plan, removal canonical s targets = .ok plan → s.lockfile.Undisputed →
      ∃ p ds names, s.project = some p ∧ p.requirements = .ok ds ∧
        matched canonical ds targets = .ok names ∧
        plan.project.requirements = .ok (ds.filter fun d ↦ d.name ∉ names) ∧
        Prunes s.lockfile ((ds.filter fun d ↦ d.name ∉ names).map Dependency.name) plan := by
  refine ⟨s.lockfile.iterate_round_roots, fun plan h hundisputed ↦ ?_⟩
  obtain ⟨p, ds, names, hproject, hds, hnames, rfl⟩ := exists_dropping_of_removal h
  exact ⟨p, ds, names, hproject, hds, hnames, Project.requirements_withoutAll hds names,
    prunes_dropping hundisputed p ds names⟩

/-- A workbook in which two packages need each other beside one that is declared, two more need each
other behind both declared ones, and one dependency is not locked. -/
def entangled : State where
  project := some { dependencies := ["app>=1", "tool"] }
  lockfile := ⟨.ofList [
    ("app", { version := "1.0.0", dependencies := ["side", "core"], functions := ["RUN"] }),
    ("core", { version := "1.0.0", dependencies := ["util>=1", "gone"], functions := ["SUM"] }),
    ("side", { version := "1.0.0", dependencies := ["app"], functions := ["SIDE", "EDGE"] }),
    ("tool", { version := "1.0.0", dependencies := ["util"] }),
    ("util", { version := "1.0.0", dependencies := ["core"], functions := ["MEAN"] })]⟩

/-- The package that is only needed by the removed one goes as well, though the two need each other;
the packages behind the tool stay. -/
theorem removal_prunes_entangled : ∃ plan,
    removal (fun _ ↦ none) entangled ["app"] = .ok plan ∧ entangled.lockfile.Undisputed ∧
      plan.removed = ["app", "side"] ∧ plan.obsolete = ["RUN", "SIDE", "EDGE"] ∧
      Prunes entangled.lockfile ["tool"] plan := by
  have hds : Project.requirements { dependencies := ["app>=1", "tool"] } =
      .ok [⟨"app", ">=1"⟩, ⟨"tool", ""⟩] := by decide +kernel
  have hplan : removal (fun _ ↦ none) entangled ["app"] =
      .ok (dropping entangled.lockfile _ _ ["app"]) :=
    removal_of_matched rfl hds (by decide +kernel)
  have hundisputed : entangled.lockfile.Undisputed := Lockfile.undisputed_of_nodup (by decide)
  refine ⟨_, hplan, hundisputed, ?_, ?_, ?_⟩
  · simp only [dropping, Lockfile.orphans, Lockfile.closure_eq_iterate]
    decide +kernel
  · simp only [dropping, Lockfile.orphans, Lockfile.closure_eq_iterate]
    decide +kernel
  · obtain ⟨q, read, names, hproject, hread, hnames, _, hprunes⟩ :=
      (removal_prunes (fun _ ↦ none) entangled ["app"]).2 _ hplan hundisputed
    cases hproject
    cases hds.symm.trans hread
    cases hnames
    exact hprunes

/-! ## Removing in steps -/

/-- The name of a required package means that package, whatever files there are. -/
theorem matched_of_declared {targets : List String}
    (h : ∀ target ∈ targets, ∃ d ∈ ds, d.name = target) :
    matched canonical ds targets = .ok targets := by
  rw [matched, mapM_eq_ok_iff, List.forall₂_same]
  intro target htarget
  obtain ⟨d, hd, rfl⟩ := h target htarget
  have hdeclared : ds.any (·.name == d.name) = true :=
    List.any_eq_true.mpr ⟨d, hd, beq_self_eq_true d.name⟩
  rw [match?, if_pos hdeclared]
  rfl

theorem removal_of_declared {targets : List String} (hproject : s.project = some p)
    (hds : p.requirements = .ok ds) (h : ∀ target ∈ targets, ∃ d ∈ ds, d.name = target) :
    removal canonical s targets = .ok (dropping s.lockfile p ds targets) :=
  removal_of_matched hproject hds (matched_of_declared h)

theorem filter_filter_of_perm {first second all : List String} (h : all.Perm (first ++ second)) :
    ((ds.filter fun d ↦ d.name ∉ first).filter fun d ↦ d.name ∉ second) =
      ds.filter fun d ↦ d.name ∉ all := by
  rw [List.filter_filter]
  refine List.filter_congr fun d _ ↦ ?_
  simp only [h.mem_iff, List.mem_append, not_or, Bool.decide_and, Bool.and_comm]

/-- Dropping requirements on some packages and then those on others leaves the project and the
lockfile that dropping all of them leaves, and as much is lost in the two steps as in the one. -/
theorem dropping_dropping {l : Lockfile} {first second all : List String}
    (h : all.Perm (first ++ second)) {a b c : Plan} (ha : a = dropping l p ds first)
    (hb : b = dropping a.lockfile a.project (ds.filter fun d ↦ d.name ∉ first) second)
    (hc : c = dropping l p ds all) :
    b.project = c.project ∧ b.lockfile = c.lockfile ∧
      (∀ function, function ∈ a.obsolete ++ b.obsolete ↔ function ∈ c.obsolete) ∧
      ∀ name, name ∈ a.removed ++ b.removed ↔ name ∈ c.removed := by
  have hroots : ((ds.filter fun d ↦ d.name ∉ first).filter fun d ↦ d.name ∉ second) =
      ds.filter fun d ↦ d.name ∉ all := filter_filter_of_perm h
  have hfewer : (ds.filter fun d ↦ d.name ∉ all).map Dependency.name ⊆
      (ds.filter fun d ↦ d.name ∉ first).map Dependency.name := by
    rw [← hroots]
    exact List.map_subset _ List.filter_sublist.subset
  have horphans (entry : String × Locked) :
      entry ∈ l.orphans _ ++ (l.needed _).orphans _ ↔ entry ∈ l.orphans _ :=
    Lockfile.orphans_of_needed hfewer
  subst ha hb hc
  simp only [dropping, hroots]
  refine ⟨?_, Lockfile.needed_needed hfewer, fun function ↦ ?_, fun name ↦ ?_⟩
  · rw [← Project.withoutAll_append]
    exact (Project.withoutAll_of_perm h).symm
  · rw [← List.flatMap_append]
    simp only [List.mem_flatMap, horphans]
  · rw [← List.map_append]
    simp only [List.mem_map, horphans]

/-- Required packages are removed in two steps, whatever functions the workbook has in between, with
the result of removing all of them in any order at once. -/
theorem removal_stepwise (canonical : String → Option String) (hproject : s.project = some p)
    (hds : p.requirements = .ok ds) {first second all : List String}
    (hperm : all.Perm (first ++ second)) (hnodup : all.Nodup)
    (hdeclared : ∀ name ∈ all, ∃ d ∈ ds, d.name = name) (functions : FunctionMap) :
    ∃ a b c, removal canonical s first = .ok a ∧
      removal canonical ⟨some a.project, a.lockfile, functions⟩ second = .ok b ∧
      removal canonical s all = .ok c ∧
      b.project = c.project ∧ b.lockfile = c.lockfile ∧
      (∀ function, function ∈ a.obsolete ++ b.obsolete ↔ function ∈ c.obsolete) ∧
      ∀ name, name ∈ a.removed ++ b.removed ↔ name ∈ c.removed := by
  have hmem (name : String) : name ∈ all ↔ name ∈ first ∨ name ∈ second :=
    hperm.mem_iff.trans List.mem_append
  have hdisjoint := (List.nodup_append.mp (hperm.nodup_iff.mp hnodup)).2.2
  have hfirst : removal canonical s first = .ok (dropping s.lockfile p ds first) :=
    removal_of_declared hproject hds fun name hname ↦ hdeclared name ((hmem name).mpr (.inl hname))
  have hall : removal canonical s all = .ok (dropping s.lockfile p ds all) :=
    removal_of_declared hproject hds hdeclared
  -- What is still to be removed is still required.
  have hremaining : ∀ name ∈ second, ∃ d ∈ ds.filter fun d ↦ d.name ∉ first, d.name = name := by
    intro name hname
    obtain ⟨d, hd, rfl⟩ := hdeclared name ((hmem name).mpr (.inr hname))
    refine ⟨d, List.mem_filter.mpr ⟨hd, decide_eq_true fun hgone ↦ ?_⟩, rfl⟩
    exact hdisjoint d.name hgone d.name hname rfl
  have hsecond : removal canonical
      ⟨some (withoutAll p first), (dropping s.lockfile p ds first).lockfile, functions⟩ second =
      .ok (dropping _ _ (ds.filter fun d ↦ d.name ∉ first) second) :=
    removal_of_declared rfl (Project.requirements_withoutAll hds first) hremaining
  exact ⟨_, _, _, hfirst, hsecond, hall, dropping_dropping hperm rfl rfl rfl⟩

/-- The tool keeps what it shares with the application until it is removed itself. -/
theorem removal_stepwise_entangled : ∃ a b c,
    removal (fun _ ↦ none) entangled ["app"] = .ok a ∧
      removal (fun _ ↦ none) ⟨some a.project, a.lockfile, .empty⟩ ["tool"] = .ok b ∧
      removal (fun _ ↦ none) entangled ["tool", "app"] = .ok c ∧
      b.project = c.project ∧ b.lockfile = c.lockfile ∧
      (∀ function, function ∈ a.obsolete ++ b.obsolete ↔ function ∈ c.obsolete) ∧
      ∀ name, name ∈ a.removed ++ b.removed ↔ name ∈ c.removed := by
  have hds : Project.requirements { dependencies := ["app>=1", "tool"] } =
      .ok [⟨"app", ">=1"⟩, ⟨"tool", ""⟩] := by decide +kernel
  have hperm : ["tool", "app"].Perm (["app"] ++ ["tool"]) := List.Perm.swap _ _ _
  exact removal_stepwise (s := entangled) (fun _ ↦ none) rfl hds hperm (by decide) (by decide)
    .empty

end Plan

end SheetPackages
