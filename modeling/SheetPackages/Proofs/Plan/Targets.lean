import SheetPackages.Proofs.Plan.Removing

/-!
# What a removal takes its targets for

A target is to be the name of a required package or a path that identifies a required archive. The
search for a requirement takes each target for the right one, except for the empty text: it is a
path without components, with which every other path ends, so it is taken for the first archive
that is required. A removal drops everything that is required of a package, also what shares the
package with the requirement that was identified.

What becomes of the packages that the dropped requirements brought in is not described here.
-/

namespace SheetPackages

/-- Of all texts only the empty one is a path without components. -/
theorem Path.components_eq_nil_iff {path : String} : components path = [] ↔ path = "" := by
  refine ⟨fun h ↦ ?_, fun h ↦ by rw [h]; decide⟩
  obtain ⟨hleading, hkept⟩ := List.append_eq_nil_iff.mp h
  rw [List.map_eq_nil_iff, List.filter_eq_nil_iff] at hkept
  have htext := Text.joined_pieces '/' path.toList
  obtain ⟨first, rest, hpieces⟩ := List.exists_cons_of_ne_nil (Text.pieces_ne_nil '/' path.toList)
  have htrivial : isTrivial first = true := by
    simpa using hkept first (hpieces ▸ List.mem_cons_self)
  rw [isTrivial, Bool.or_eq_true, decide_eq_true_iff, decide_eq_true_iff] at htrivial
  rw [hpieces] at hleading htext
  rcases htrivial with rfl | rfl
  · cases rest with
    | nil => exact String.toList_eq_nil_iff.mp htext.symm
    | cons second more => cases hleading
  · cases hleading

namespace Plan

open Workbook (State)

variable {canonical : String → Option String} {s : State} {p : Project} {ds : List Dependency}
variable {target : String} {targets : List String} {d : Dependency}

/-! ## Identification -/

/-- A path with components that leads to the archive of a requirement: to the same file, or by the
last components of the recorded path. -/
structure LeadsTo (canonical : String → Option String) (target : String) (d : Dependency) :
    Prop where
  components : Path.components target ≠ []
  archive : ∃ path, d.localPath? = some path ∧
    ((∃ file, canonical target = some file ∧ canonical path = some file) ∨
      Path.components target <:+ Path.components path)

/-- A target identifies a requirement by the name of its package or by a path to its archive. -/
def Identifies (canonical : String → Option String) (target : String) (d : Dependency) : Prop :=
  target = d.name ∨ LeadsTo canonical target d

/-- What is asked of a requirement when the one is looked for that a target means. -/
def Suits (canonical : String → Option String) (target : String) (d : Dependency) : Prop :=
  target = d.name ∨ isOnArchive canonical target d = true

theorem isOnArchive_iff : isOnArchive canonical target d = true ↔ ∃ path,
    d.localPath? = some path ∧
      ((∃ file, canonical target = some file ∧ canonical path = some file) ∨
        Path.components target <:+ Path.components path) := by
  unfold isOnArchive
  cases d.localPath? with
  | none => simp
  | some path => simp [Path.endsWith, Option.any_eq_true]

/-- The empty text suits every archive and identifies nothing; other texts suit what they
identify. -/
theorem identifies_iff (hname : d.name ≠ "") :
    Identifies canonical target d ↔ target ≠ "" ∧ Suits canonical target d := by
  constructor
  · rintro (rfl | hleads)
    · exact ⟨hname, .inl rfl⟩
    · exact ⟨mt Path.components_eq_nil_iff.mpr hleads.components,
        .inr (isOnArchive_iff.mpr hleads.archive)⟩
  · rintro ⟨htarget, rfl | harchive⟩
    · exact .inl rfl
    · exact .inr ⟨mt Path.components_eq_nil_iff.mp htarget, isOnArchive_iff.mp harchive⟩

/-- A name is only found for a target that suits a requirement on that package. -/
theorem exists_suits_of_match? {name : String} (h : match? canonical ds target = some name) :
    ∃ d ∈ ds, d.name = name ∧ Suits canonical target d := by
  unfold match? at h
  split at h
  · next hdeclared =>
    obtain ⟨d, hd, hname⟩ := List.any_eq_true.mp hdeclared
    cases h
    exact ⟨d, hd, beq_iff_eq.mp hname, .inl (beq_iff_eq.mp hname).symm⟩
  · obtain ⟨d, hfind, rfl⟩ := Option.map_eq_some_iff.mp h
    exact ⟨d, List.mem_of_find?_eq_some hfind, rfl, .inr (List.find?_some hfind)⟩

/-- No name is found for a target exactly if it suits no requirement. -/
theorem match?_eq_none_iff :
    match? canonical ds target = none ↔ ∀ d ∈ ds, ¬ Suits canonical target d := by
  constructor
  · intro hnone d hd hsuits
    unfold match? at hnone
    split at hnone
    · cases hnone
    · next hdeclared =>
      rcases hsuits with hname | harchive
      · exact hdeclared (List.any_eq_true.mpr ⟨d, hd, beq_iff_eq.mpr hname.symm⟩)
      · rw [Option.map_eq_none_iff, List.find?_eq_none] at hnone
        exact hnone d hd harchive
  · intro hnothing
    rw [← Option.not_isSome_iff_eq_none, Option.isSome_iff_exists]
    rintro ⟨name, hname⟩
    obtain ⟨d, hd, -, hsuits⟩ := exists_suits_of_match? hname
    exact hnothing d hd hsuits

/-! ## The names that are found -/

theorem matched_eq_ok_iff {names : List String} : matched canonical ds targets = .ok names ↔
    List.Forall₂ (fun target name ↦ match? canonical ds target = some name) targets names := by
  rw [matched, mapM_eq_ok_iff]
  constructor <;> refine fun h ↦ h.imp fun target name hone ↦ ?_
  · cases hmatch : match? canonical ds target with
    | some found =>
      rw [hmatch] at hone
      exact congrArg some (Except.ok.inj hone)
    | none =>
      rw [hmatch] at hone
      cases hone
  · rw [hone]
    rfl

/-- The names are those that are found for some target. -/
theorem mem_matched_iff {name : String} {names : List String}
    (h : matched canonical ds targets = .ok names) :
    name ∈ names ↔ ∃ target ∈ targets, match? canonical ds target = some name := by
  have hpairs := matched_eq_ok_iff.mp h
  constructor
  · exact fun hmem ↦ exists_of_mem_right hpairs hmem
  · rintro ⟨target, htarget, hmatch⟩
    obtain ⟨other, hother, hfound⟩ := exists_of_mem_left hpairs htarget
    exact Option.some.inj (hmatch.symm.trans hfound) ▸ hother

/-- The search is given up for a target that suits no requirement, and only for such a one. -/
theorem exists_of_matched_eq_error {fault : Fault}
    (h : matched canonical ds targets = .error fault) :
    ∃ target ∈ targets, (∀ d ∈ ds, ¬ Suits canonical target d) ∧ fault = .notInstalled target := by
  obtain ⟨target, htarget, hfault⟩ := exists_of_mapM_eq_error h
  cases hmatch : match? canonical ds target with
  | some name => rw [hmatch] at hfault; cases hfault
  | none =>
    rw [hmatch] at hfault
    exact ⟨target, htarget, match?_eq_none_iff.mp hmatch, (Except.error.inj hfault).symm⟩

/-- A removal fails like the search for its targets. -/
theorem removal_of_matched_eq_error {fault : Fault} (hproject : s.project = some p)
    (hds : p.requirements = .ok ds) (h : matched canonical ds targets = .error fault) :
    removal canonical s targets = .error fault := by
  simp only [removal, State.needProject, hproject, pure, Except.pure, bind, Except.bind, hds, h]

/-! ## Accounts of removals -/

/-- A plan drops a requirement: the project that it is for has it no more. -/
def Drops (plan : Plan) (d : Dependency) : Prop :=
  ∃ rest, plan.project.requirements = .ok rest ∧ d ∉ rest

theorem drops_dropping_iff {l : Lockfile} {names : List String} (hds : p.requirements = .ok ds)
    (hd : d ∈ ds) : (dropping l p ds names).Drops d ↔ d.name ∈ names := by
  have hrest : (dropping l p ds names).project.requirements =
      .ok (ds.filter fun d ↦ d.name ∉ names) := Project.requirements_withoutAll hds names
  have hkept : d ∈ (ds.filter fun d ↦ d.name ∉ names) ↔ d.name ∉ names := by
    rw [List.mem_filter, decide_eq_true_iff, and_iff_right hd]
  unfold Drops
  rw [hrest]
  simp only [Except.ok.injEq, exists_eq_left', hkept, not_not]

/-- What came of a removal is accounted for by its targets: every target identifies a requirement
that is dropped, every requirement that is dropped is identified by a target, and if a target
identifies nothing, then such a target is named and nothing is planned. -/
structure Accounted (canonical : String → Option String) (ds : List Dependency)
    (targets : List String) (outcome : Except Fault Plan) : Prop where
  target : ∀ plan, outcome = .ok plan → ∀ target ∈ targets,
    ∃ d ∈ ds, Identifies canonical target d ∧ plan.Drops d
  dropped : ∀ plan, outcome = .ok plan → ∀ d ∈ ds, plan.Drops d →
    ∃ target ∈ targets, Identifies canonical target d
  refused : (∃ target ∈ targets, ∀ d ∈ ds, ¬ Identifies canonical target d) →
    ∃ target ∈ targets, (∀ d ∈ ds, ¬ Identifies canonical target d) ∧
      outcome = .error (.notInstalled target)

/-- A requirement on a package whose name is found for some target suits a target itself. -/
def Undivided (canonical : String → Option String) (ds : List Dependency) (targets : List String) :
    Prop :=
  ∀ d ∈ ds, (∃ target ∈ targets, match? canonical ds target = some d.name) →
    ∃ target ∈ targets, Suits canonical target d

/-- Requirements on different packages have nothing to share. -/
theorem undivided_of_nodup (h : (ds.map Dependency.name).Nodup) :
    Undivided canonical ds targets := by
  rintro d hd ⟨target, htarget, hmatch⟩
  obtain ⟨e, he, hname, hsuits⟩ := exists_suits_of_match? hmatch
  obtain rfl : e = d := List.inj_on_of_nodup_map h he hd hname
  exact ⟨target, htarget, hsuits⟩

theorem name_ne_empty_of_requirements (hds : p.requirements = .ok ds) (hd : d ∈ ds) :
    d.name ≠ "" := by
  obtain ⟨entry, -, hparse⟩ :=
    exists_of_mem_right (Project.requirements_eq_ok_iff.mp hds) hd
  exact fun hname ↦ (Dependency.of_parse hparse).1 (String.toList_eq_nil_iff.mpr hname)

/-- A removal with names for its targets is accounted for exactly if the empty text is not among
them and no requirement is dropped only for sharing its package. -/
theorem accounted_dropping_iff {l : Lockfile} {names : List String}
    (hds : p.requirements = .ok ds) (hnames : matched canonical ds targets = .ok names) :
    Accounted canonical ds targets (.ok (dropping l p ds names)) ↔
      "" ∉ targets ∧ Undivided canonical ds targets := by
  have hidentifies {target : String} {d : Dependency} (hd : d ∈ ds) :
      Identifies canonical target d ↔ target ≠ "" ∧ Suits canonical target d :=
    identifies_iff (name_ne_empty_of_requirements hds hd)
  constructor
  · intro h
    refine ⟨fun hempty ↦ ?_, fun d hd hshared ↦ ?_⟩
    · obtain ⟨d, hd, hidentified, -⟩ := h.target _ rfl "" hempty
      exact ((hidentifies hd).mp hidentified).1 rfl
    · have hdrops := (drops_dropping_iff (l := l) hds hd).mpr ((mem_matched_iff hnames).mpr hshared)
      obtain ⟨target, htarget, hidentified⟩ := h.dropped _ rfl d hd hdrops
      exact ⟨target, htarget, ((hidentifies hd).mp hidentified).2⟩
  · rintro ⟨hempty, hundivided⟩
    have hheard : ∀ target ∈ targets,
        ∃ d ∈ ds, Identifies canonical target d ∧ (dropping l p ds names).Drops d := by
      intro target htarget
      obtain ⟨name, hname, hmatch⟩ := exists_of_mem_left (matched_eq_ok_iff.mp hnames) htarget
      obtain ⟨d, hd, rfl, hsuits⟩ := exists_suits_of_match? hmatch
      have htext : target ≠ "" := fun heq ↦ hempty (heq ▸ htarget)
      exact ⟨d, hd, (hidentifies hd).mpr ⟨htext, hsuits⟩, (drops_dropping_iff hds hd).mpr hname⟩
    constructor
    case target =>
      rintro _ ⟨⟩
      exact hheard
    case dropped =>
      rintro _ ⟨⟩ d hd hdrops
      obtain ⟨target, htarget, hsuits⟩ :=
        hundivided d hd ((mem_matched_iff hnames).mp ((drops_dropping_iff hds hd).mp hdrops))
      have htext : target ≠ "" := fun heq ↦ hempty (heq ▸ htarget)
      exact ⟨target, htarget, (hidentifies hd).mpr ⟨htext, hsuits⟩⟩
    case refused =>
      rintro ⟨target, htarget, hnothing⟩
      obtain ⟨d, hd, hidentified, -⟩ := hheard target htarget
      exact absurd hidentified (hnothing d hd)

/-- A removal that finds nothing for some target is accounted for. -/
theorem accounted_error {fault : Fault} (hds : p.requirements = .ok ds)
    (h : matched canonical ds targets = .error fault) :
    Accounted canonical ds targets (.error fault) where
  target _ hplan := nomatch hplan
  dropped _ hplan := nomatch hplan
  refused _ := by
    obtain ⟨target, htarget, hnothing, rfl⟩ := exists_of_matched_eq_error h
    refine ⟨target, htarget, fun d hd hidentified ↦ hnothing d hd ?_, rfl⟩
    exact ((identifies_iff (name_ne_empty_of_requirements hds hd)).mp hidentified).2

/-- A removal is accounted for by its targets exactly if one of them suits nothing that is required,
or else the empty text is not among them and no requirement is dropped only for sharing its package
with another one. A project with an entry that is no requirement is refused for that entry. -/
theorem removal_accounted_iff (canonical : String → Option String) (hproject : s.project = some p)
    (targets : List String) :
    (∀ fault, p.requirements = .error fault → removal canonical s targets = .error fault) ∧
      ∀ ds, p.requirements = .ok ds →
        (Accounted canonical ds targets (removal canonical s targets) ↔
          (∃ target ∈ targets, ∀ d ∈ ds, ¬ Suits canonical target d) ∨
            "" ∉ targets ∧ Undivided canonical ds targets) := by
  constructor
  · intro fault hfault
    simp only [removal, State.needProject, hproject, pure, Except.pure, bind, Except.bind, hfault]
  intro ds hds
  cases hnames : matched canonical ds targets with
  | error fault =>
    rw [removal_of_matched_eq_error hproject hds hnames]
    obtain ⟨target, htarget, hnothing, -⟩ := exists_of_matched_eq_error hnames
    exact iff_of_true (accounted_error hds hnames) (.inl ⟨target, htarget, hnothing⟩)
  | ok names =>
    rw [removal_of_matched hproject hds hnames, accounted_dropping_iff hds hnames]
    refine (or_iff_right ?_).symm
    rintro ⟨target, htarget, hnothing⟩
    obtain ⟨name, -, hmatch⟩ := exists_of_mem_left (matched_eq_ok_iff.mp hnames) htarget
    rw [match?_eq_none_iff.mpr hnothing] at hmatch
    cases hmatch

/-- A workbook that requires an archive file and a published package. -/
def twoSourced : State where
  project := some { dependencies := ["mylib@file:/abs/dist/mylib-1.0.0.gspkg", "stats>=1"] }
  lockfile := ⟨.ofList [("mylib", { version := "local", functions := ["HELLO"] }),
    ("stats", { version := "1.2.0", functions := ["MEAN"] })]⟩

theorem requirements_twoSourced : ∃ p, twoSourced.project = some p ∧
    p.requirements = .ok [⟨"mylib", "@file:/abs/dist/mylib-1.0.0.gspkg"⟩, ⟨"stats", ">=1"⟩] :=
  ⟨_, rfl, by decide +kernel⟩

/-- The end of the recorded path and the name of the other package account for a removal. -/
theorem removal_accounted_iff_twoSourced : ∃ p ds,
    twoSourced.project = some p ∧ p.requirements = .ok ds ∧
      Accounted (fun _ ↦ none) ds ["dist/mylib-1.0.0.gspkg", "stats"]
        (removal (fun _ ↦ none) twoSourced ["dist/mylib-1.0.0.gspkg", "stats"]) := by
  obtain ⟨p, hproject, hds⟩ := requirements_twoSourced
  refine ⟨p, _, hproject, hds, ?_⟩
  refine ((removal_accounted_iff (fun _ ↦ none) hproject _).2 _ hds).mpr (.inr ⟨by decide, ?_⟩)
  exact undivided_of_nodup (by decide)

/-- The empty text, which identifies nothing, removes the archive with its function. -/
theorem not_accounted_empty : ∃ p ds plan,
    twoSourced.project = some p ∧ p.requirements = .ok ds ∧
      removal (fun _ ↦ none) twoSourced [""] = .ok plan ∧ plan.removed = ["mylib"] ∧
      plan.obsolete = ["HELLO"] ∧ ¬ Accounted (fun _ ↦ none) ds [""] (.ok plan) := by
  obtain ⟨p, hproject, hds⟩ := requirements_twoSourced
  have hnames : matched (fun _ ↦ none)
      [⟨"mylib", "@file:/abs/dist/mylib-1.0.0.gspkg"⟩, ⟨"stats", ">=1"⟩] [""] =
      .ok ["mylib"] := by decide +kernel
  refine ⟨p, _, _, hproject, hds, removal_of_matched hproject hds hnames, ?_, ?_, ?_⟩
  · simp only [dropping, Lockfile.orphans, Lockfile.closure_eq_iterate]
    decide +kernel
  · simp only [dropping, Lockfile.orphans, Lockfile.closure_eq_iterate]
    decide +kernel
  · rw [accounted_dropping_iff hds hnames]
    exact fun h ↦ h.1 List.mem_cons_self

end Plan

end SheetPackages
