import SheetPackages.Proofs.Plan.Rewriting
import SheetPackages.Proofs.Plan.Shadowing
import SheetPackages.Proofs.Registry.Directory

/-!
# Sealed packages

A lockfile seals a package that it has from the registry with the integrity that it records. When an
operation selects a sealed package at the same version again, its functions come from bytes with
that integrity, wherever the bytes were; other bytes are refused, and then nothing is planned. What
the registry gives goes into the store before it is compared, so bytes that cannot be kept end in
the fault of the store. The archives of a selection are fetched independently of each other, so
where several of them fail the fault is that of one of these.
-/

namespace SheetPackages

/-! ## Seals -/

/-- The lockfile records the integrity for the package, from the registry and at a version that is
the same as the given one. -/
def Lockfile.Seals (l : Lockfile) (name version integrity : String) : Prop :=
  ∃ entry, l.get? name = some entry ∧ entry.isLocal = false ∧
    (entry.version = version ∨ ∃ v w, Version.parse entry.version = .ok v ∧
      Version.parse version = .ok w ∧ v.same w = true) ∧
    entry.integrity = some integrity ∧ integrity ≠ ""

namespace Batch

theorem isSameVersion_iff {a b : String} : isSameVersion a b = true ↔ a = b ∨
    ∃ v w, Version.parse a = .ok v ∧ Version.parse b = .ok w ∧ v.same w = true := by
  unfold isSameVersion
  split
  · next v w ha hb =>
    constructor
    · exact fun h ↦ .inr ⟨v, w, ha, hb, h⟩
    · rintro (rfl | ⟨_, _, ha', hb', h⟩)
      · cases ha.symm.trans hb
        exact v.same_self
      · cases ha.symm.trans ha'
        cases hb.symm.trans hb'
        exact h
  · next hunread =>
    rw [beq_iff_eq]
    exact ⟨.inl, fun h ↦ h.resolve_right fun ⟨v, w, ha, hb, _⟩ ↦ hunread v w ha hb⟩

/-- What is expected of an archive is what the lockfile has sealed its version with. -/
theorem lockedIntegrity?_eq_some_iff {l : Lockfile} {name version integrity : String} :
    lockedIntegrity? l name version = some integrity ↔ l.Seals name version integrity := by
  refine Option.bind_eq_some_iff.trans (exists_congr fun entry ↦ and_congr_right fun _ ↦ ?_)
  rw [← isSameVersion_iff]
  cases entry.isLocal <;> cases isSameVersion entry.version version <;>
    simp [Option.filter_eq_some_iff]

/-! ## Fetching -/

variable {σ : Type} {supply : Supply (StateM σ)} {start s after : σ} {l : Lockfile}

/-- What has been fetched was read from bytes with the sealed integrity. -/
theorem Fetches.exists_data {name version : String} {a : Archive}
    (h : Fetches supply start l name version a) :
    ∃ data, supply.Yields start (supply.archive name version) data ∧
      Archive.ofBytes data s!"{name}-{version}.gspkg" = .ok a ∧
      ∀ integrity, l.Seals name version integrity → Digest.integrity data = integrity := by
  obtain ⟨s, hs, hresult⟩ := h
  obtain ⟨data, hdata, hread, hsealed⟩ :=
    (leads_fetch (supply.ensures_archive name version s hs) _).2 a hresult
  exact ⟨data, hdata, hread, fun integrity hseals ↦
    hsealed integrity (lockedIntegrity?_eq_some_iff.mpr hseals)⟩

/-- What is drawn is refused as the archive of a sealed package: there are no bytes, or other ones
than the sealed ones. -/
inductive Refuses (name integrity : String) : Except Fault ByteArray → Fault → Prop
  | missing (fault : Fault) : Refuses name integrity (.error fault) fault
  | altered (data : ByteArray) (hne : Digest.integrity data ≠ integrity) :
    Refuses name integrity (.ok data) (.integrityMismatch name integrity (Digest.integrity data))

theorem run_fetch_of_refuses {name version integrity : String} {fault : Fault}
    (h : Refuses name integrity ((supply.archive name version).run.run s).1 fault) :
    ((fetch supply name version (some integrity)).run.run s).1 = .error fault := by
  generalize hdrawn : (supply.archive name version).run.run s = drawn at h
  obtain ⟨result, after⟩ := drawn
  cases h with
  | missing fault => rw [fetch, run_bind_of_error hdrawn]
  | altered data hne =>
    have hverify : Digest.verify name data integrity =
        .error (.integrityMismatch name integrity (Digest.integrity data)) := if_neg hne
    rw [fetch, run_bind_of_ok hdrawn]
    simp only [hverify]
    rfl

/-! ## Completions -/

theorem run_fetchAll_registry {name version : String} {rest : List Selected} {position : Nat}
    {between : σ} {result : Except Fault Archive} {completions : List Completion}
    (hfetch : (fetch supply name version (lockedIntegrity? l name version)).run.run s =
      (result, between))
    (hrest : (fetchAll supply l (position + 1) rest).run.run between = (.ok completions, after)) :
    (fetchAll supply l position (⟨name, .registry version⟩ :: rest)).run.run s =
      (.ok ((position, result.map (Unpacked.ofArchive name version
        (Locked.registryOrigin name version))) :: completions), after) := by
  rw [fetchAll, run_bind_of_ok (run_caught hfetch), run_bind_of_ok hrest]
  rfl

/-- Fetching always ends with completions, whose positions are those of the selected packages. -/
theorem exists_run_fetchAll (supply : Supply (StateM σ)) (l : Lockfile)
    (selection : List Selected) (position : Nat) (s : σ) :
    ∃ completions after, (fetchAll supply l position selection).run.run s =
        (.ok completions, after) ∧
      ∀ completion ∈ completions, position ≤ completion.1 ∧
        completion.1 < position + selection.length := by
  induction selection generalizing position s with
  | nil => exact ⟨[], s, rfl, nofun⟩
  | cons selected rest ih =>
    obtain ⟨name, origin⟩ := selected
    rw [List.length_cons]
    cases origin with
    | file path a =>
      obtain ⟨completions, after, hrun, hpositions⟩ := ih (position + 1) s
      refine ⟨completions, after, hrun, fun completion hmem ↦ ?_⟩
      have hposition := hpositions completion hmem
      omega
    | registry version =>
      obtain ⟨completions, after, hrun, hpositions⟩ := ih (position + 1) _
      refine ⟨_, after, run_fetchAll_registry rfl hrun, ?_⟩
      refine List.forall_mem_cons.mpr ⟨⟨Nat.le_refl _, by omega⟩, fun completion hmem ↦ ?_⟩
      have hposition := hpositions completion hmem
      omega

/-- The completions of a selection are those of its first part and those of the rest. -/
theorem fetchAll_append (first rest : List Selected) (position : Nat) :
    fetchAll supply l position (first ++ rest) = do
      let completions ← fetchAll supply l position first
      let others ← fetchAll supply l (position + first.length) rest
      return completions ++ others := by
  induction first generalizing position with
  | nil => simp [fetchAll]
  | cons selected more ih =>
    have hlength : position + 1 + more.length = position + (more.length + 1) := by omega
    obtain ⟨name, origin⟩ := selected
    cases origin <;> simp [fetchAll, ih, hlength]

/-- Where a completion failed, the whole batch fails, with the fault of a failed completion. -/
theorem collect_eq_error {completions : List Completion} {position : Nat} {fault : Fault}
    (h : (position, .error fault) ∈ completions) (slots : List (Option Unpacked)) :
    ∃ place reported, (place, .error reported) ∈ completions ∧
      collect slots completions = .error reported := by
  induction completions generalizing slots with
  | nil => cases h
  | cons completion rest ih =>
    obtain ⟨place, result⟩ := completion
    cases result with
    | error reported => exact ⟨place, reported, List.mem_cons_self, rfl⟩
    | ok u =>
      have hrest := (List.mem_cons.mp h).resolve_left nofun
      obtain ⟨other, reported, hmem, hcollect⟩ := ih hrest (slots.set place (some u))
      exact ⟨other, reported, List.mem_cons_of_mem _ hmem, hcollect⟩

/-- The fault is the given one at a position, or that of a completion at another one. -/
def Reports (completions : List Completion) (position : Nat) (fault reported : Fault) : Prop :=
  reported = fault ∨ ∃ place, place ≠ position ∧ (place, .error reported) ∈ completions

section

variable {now : σ} {before : List Selected} {name version integrity : String} {fault : Fault}

/-- Where what is drawn for a sealed package is refused, the package fails with the fault, and
nothing else fails at its position. -/
theorem exists_refused_completions (behind : List Selected)
    (hseals : l.Seals name version integrity)
    (hrefuses : Refuses name integrity ((supply.archive name version).run.run
      ((fetchAll supply l 0 before).run.run now).2).1 fault) :
    ∃ completions after,
      (fetchAll supply l 0 (before ++ ⟨name, .registry version⟩ :: behind)).run.run now =
        (.ok completions, after) ∧
      ∀ other, (before.length, .error other) ∈ completions ↔ other = fault := by
  obtain ⟨first, there, hfirst, hbefore⟩ :=
    exists_run_fetchAll supply l before 0 now
  rw [hfirst] at hrefuses
  have hrefused := run_fetch_of_refuses hrefuses
  rw [← lockedIntegrity?_eq_some_iff.mpr hseals] at hrefused
  obtain ⟨others, after, hothers, hbehind⟩ :=
    exists_run_fetchAll supply l behind (0 + before.length + 1) _
  have hrest := run_fetchAll_registry (Prod.ext hrefused rfl) hothers
  rw [Nat.zero_add] at hbefore hbehind hrest
  refine ⟨first ++ (before.length, .error fault) :: others, after, ?_, fun other ↦ ?_⟩
  · rw [fetchAll_append, run_bind_of_ok hfirst, Nat.zero_add, run_bind_of_ok hrest]
    rfl
  · constructor
    · intro hmem
      rcases List.mem_append.mp hmem with hmem | hmem
      · exact absurd (hbefore _ hmem).2 (Nat.lt_irrefl _)
      · rcases List.mem_cons.mp hmem with heq | hmem
        · cases heq
          rfl
        · exact absurd (hbehind _ hmem).1 (Nat.not_succ_le_self _)
    · rintro rfl
      exact List.mem_append_right first List.mem_cons_self

/-- In whatever order the completions arrive, the batch fails. -/
theorem collect_refused {completions arrived : List Completion} {position : Nat}
    (h : ∀ other, (position, .error other) ∈ completions ↔ other = fault)
    (harrived : arrived.Perm completions) (slots : List (Option Unpacked)) :
    ∃ reported, collect slots arrived = .error reported ∧
      Reports completions position fault reported := by
  obtain ⟨place, reported, hmem, hcollect⟩ :=
    collect_eq_error (harrived.mem_iff.mpr ((h fault).mpr rfl)) slots
  refine ⟨reported, hcollect, ?_⟩
  rw [harrived.mem_iff] at hmem
  by_cases hplace : place = position
  · exact .inl ((h reported).mp (hplace ▸ hmem))
  · exact .inr ⟨place, hplace, hmem⟩

/-- A package that is selected alone fails with its own fault. -/
theorem Reports.eq_of_single {selected : Selected} {completions : List Completion}
    {reported : Fault} (h : Reports completions 0 fault reported)
    (hcompletions : ((fetchAll supply l 0 [selected]).run.run now).1 = .ok completions) :
    reported = fault := by
  obtain ⟨_, _, hrun, hpositions⟩ := exists_run_fetchAll supply l [selected] 0 now
  rw [hrun] at hcompletions
  cases hcompletions
  exact h.resolve_right fun ⟨_, hplace, hmem⟩ ↦
    hplace (Nat.lt_one_iff.mp (hpositions _ hmem).2)

theorem run_planOf_of_collect {s : Workbook.State} {p : Project} {selection : List Selected}
    {renames : RenameMaps} {completions : List Completion}
    (hrun : (fetchAll supply s.lockfile 0 selection).run.run now = (.ok completions, after))
    (hcollect : collect (selection.map atHand?) completions = .error fault) :
    (planOf supply s p selection renames).run.run now = (.error fault, after) := by
  refine run_bind_of_error ?_ _
  rw [ofSelection, run_bind_of_ok hrun, hcollect]
  rfl

end

end Batch

/-! ## Functions -/

/-- Each of the functions is one of the archive, under its alias and with the aliases in its
body. -/
def Plan.Provides (p : Plan) (map : Formula.RenameMap) (functions : List String) (a : Archive) :
    Prop :=
  ∀ function ∈ functions, ∃ old f, a.functions.get? old = some f ∧
    Function.isReserved old = false ∧ function = (map.get? old).getD old ∧
    p.functions.get? function =
      some { f with name := function, definition := Formula.rename map f.definition }

variable {σ : Type} {supply : Supply (StateM σ)} {start : σ} {s : Workbook.State}
  {renames : RenameMaps}

namespace Selected.Selects

variable {ds pins others : List Dependency} {selection files : List Selected} {i : Index}
  {packages : List Package} {name : String}

theorem not_mem_files {version : String}
    (h : Selects supply start ds pins selection i files others packages)
    (hmem : ⟨name, .registry version⟩ ∈ selection) : name ∉ files.map Selected.name := by
  rcases h.of_mem hmem with hfile | ⟨q, _, hnew, heq⟩
  · obtain ⟨path, archive, _, horigin, _⟩ := h.gathers.of_mem hfile
    cases horigin
  · cases heq
    exact hnew

/-- What is selected from the registry is selected once. -/
theorem nodup_filter (h : Selects supply start ds pins selection i files others packages)
    (hnew : name ∉ files.map Selected.name) :
    ((selection.map Selected.name).filter (· = name)).Nodup := by
  have hfiles : (files.map Selected.name).filter (· = name) = [] :=
    List.filter_eq_nil_iff.mpr fun other hother heq ↦ hnew (of_decide_eq_true heq ▸ hother)
  have hnames : ((packages.map (ofPackage i)).map Selected.name).Nodup := by
    rw [List.map_map]
    exact h.solves.nodup
  rw [h.selection_eq, List.map_append, List.filter_append, hfiles, List.nil_append]
  exact (hnames.sublist (List.filter_sublist.map _)).filter _

end Selected.Selects

namespace Batch

theorem eq_of_nodup_filter {batch : List Unpacked} {u v : Unpacked}
    (h : ((batch.map Unpacked.name).filter (· = u.name)).Nodup) (hu : u ∈ batch) (hv : v ∈ batch)
    (hname : v.name = u.name) : v = u := by
  rw [List.filter_map] at h
  exact List.inj_on_of_nodup_map h (List.mem_filter.mpr ⟨hv, decide_eq_true hname⟩)
    (List.mem_filter.mpr ⟨hu, decide_eq_true rfl⟩) hname

/-- The functions of an unpacked archive, as they are planned. -/
theorem provides_of_check {p : Project} {batch checked : List Unpacked}
    {name version origin : String} {a : Archive} (hchecks : check s renames batch = .ok checked)
    (hmem : Unpacked.ofArchive name version origin a ∈ batch)
    (honce : ((batch.map Unpacked.name).filter (· = name)).Nodup) (hkeyed : Keyed a.functions) :
    (plan s p (checked.map (withAliases renames))).Provides (Alias.mapOf renames name)
      (aliased (Alias.mapOf renames name)
        (Unpacked.ofArchive name version origin a).functions).1.keys a := by
  let u := Unpacked.ofArchive name version origin a
  let w : Unpacked := { u with functions := (aliased (Alias.mapOf renames u.name) u.functions).1 }
  have hw : withAliases renames w ∈ checked.map (withAliases renames) :=
    List.mem_map_of_mem (mem_of_checked hchecks hmem)
  have hname : (withAliases renames w).name = name := name_withAliases renames w
  intro function hfunction
  obtain ⟨f, hf⟩ := Option.isSome_iff_exists.mp (OrderedMap.mem_keys_iff_contains.mp hfunction)
  obtain ⟨old, hold, hnew⟩ := get?_aliased hf
  rw [Unpacked.ofArchive, OrderedMap.get?_filter, Option.filter_eq_some_iff,
    Bool.not_eq_true'] at hold
  obtain ⟨final, hfinal⟩ := get?_withAliases (u := w) renames hf
  obtain rfl : final = function :=
    keyed_withAliases (u := w) (v := u) (Unpacked.keyed_ofArchive hkeyed) rfl rfl function _ hfinal
  refine ⟨old, f, hold.1, hold.2, hnew, ?_⟩
  refine get?_functions ((checked_apart hchecks).1.withAliases renames) hw ?_ hfinal
  refine fun v hv heq ↦ eq_of_nodup_filter ?_ hw hv heq
  rw [map_name_of_check hchecks, hname]
  exact honce

/-- What is locked from the registry under a sealed version keeps the seal, and its functions come
from bytes with the sealed integrity. -/
theorem keeps_seal {ds pins others : List Dependency} {selection files : List Selected} {i : Index}
    {packages : List Package} {batch checked : List Unpacked} {p : Project}
    {name integrity : String} {entry : Locked}
    (hselects : Selected.Selects supply start ds pins selection i files others packages)
    (hunpacks : List.Forall₂ (Unpacks (Fetches supply start s.lockfile)) selection batch)
    (hchecks : check s renames batch = .ok checked)
    (hentry : (lockfile (checked.map (withAliases renames))).get? name = some entry)
    (hregistry : entry.isLocal = false) (hseals : s.lockfile.Seals name entry.version integrity) :
    entry.integrity = some integrity ∧ ∃ data a,
      supply.Yields start (supply.archive name entry.version) data ∧
      Digest.integrity data = integrity ∧
      Archive.ofBytes data s!"{name}-{entry.version}.gspkg" = .ok a ∧
      (plan s p (checked.map (withAliases renames))).Provides (Alias.mapOf renames name)
        entry.functions a := by
  obtain ⟨u, hu, rfl, rfl⟩ := exists_unpacked_of_check hchecks hentry
  obtain ⟨selected, hselected, hunpacked⟩ := exists_of_mem_right hunpacks hu
  cases hunpacked with
  | file name path a =>
    exact absurd (hregistry.symm.trans (Locked.isLocal_fileOrigin rfl)) Bool.false_ne_true
  | @registry name version a hfetched =>
    obtain ⟨data, hdata, hread, hsealed⟩ := hfetched.exists_data
    have hintegrity := hsealed integrity hseals
    refine ⟨?_, data, a, hdata, hintegrity, hread, provides_of_check hchecks hu ?_ ?_⟩
    · rw [← hintegrity, ← (Archive.of_ofBytes hread).2]
      rfl
    · rw [Unpacks.map_name hunpacks]
      exact hselects.nodup_filter (hselects.not_mem_files hselected)
    · exact Archive.keyed_ofBytes hread

end Batch

/-! ## Bytes -/

namespace Supply

section

variable (r : Registry) (store : Archive.Store) (now : World × IndexCache) (name version : String)
  (data : ByteArray)

/-- The store has the bytes, or else the registry gives them. -/
def Finds : Prop :=
  store.kept? now.1.files name version = some data ∨
    store.kept? now.1.files name version = none ∧
      ((r.archive name version).run.run now).1 = .ok data

/-- The store has nothing, and the bytes that the registry gives cannot be put into it. -/
def CannotKeep (fault : Fault) : Prop :=
  store.kept? now.1.files name version = none ∧ ∃ after,
    (r.archive name version).run.run now = (.ok data, after) ∧
      ((store.put name version data).runIn after.1).1 = .error fault

end

variable {r : Registry} {store : Archive.Store} {now : World × IndexCache} {name version : String}
  {data : ByteArray}

theorem finds_of_stored (h : ((stored r store name version).run.run now).1 = .ok data) :
    Finds r store now name version data := by
  rw [run_stored] at h
  cases hkept : store.kept? now.1.files name version with
  | some kept =>
    rw [hkept] at h
    exact .inl (Except.ok.inj h ▸ hkept)
  | none =>
    rw [hkept] at h
    obtain ⟨downloaded, _, hdownloaded, h⟩ := exists_of_run_bind h
    obtain ⟨_, _, _, h⟩ := exists_of_run_bind h
    cases h
    exact .inr ⟨hkept, hdownloaded⟩

/-- Bytes that are found are drawn, unless the store cannot keep them. -/
theorem stored_of_finds (h : Finds r store now name version data) :
    ((stored r store name version).run.run now).1 = .ok data ∨
      ∃ fault, CannotKeep r store now name version data fault ∧
        ((stored r store name version).run.run now).1 = .error fault := by
  rw [run_stored]
  rcases h with hkept | ⟨hkept, hfound⟩
  · rw [hkept]
    exact .inl rfl
  · rw [hkept]
    simp only
    generalize hfetched : (r.archive name version).run.run now = fetched at hfound
    obtain ⟨result, after⟩ := fetched
    cases hfound
    rw [run_bind_of_ok hfetched]
    cases hput : (store.put name version data).runIn after.1 with
    | mk kept later =>
      have hrun := run_ofAction hput after.2
      cases kept with
      | error fault =>
        rw [run_bind_of_error hrun]
        exact .inr ⟨fault, ⟨hkept, after, hfetched, congrArg Prod.fst hput⟩, rfl⟩
      | ok path =>
        rw [run_bind_of_ok hrun]
        exact .inl rfl

/-- Other bytes than the sealed ones are refused, with the mismatch if they can be kept. -/
theorem refuses_of_finds {integrity : String} (h : Finds r store now name version data)
    (hne : Digest.integrity data ≠ integrity) :
    ∃ fault, Batch.Refuses name integrity ((stored r store name version).run.run now).1 fault ∧
      (fault = .integrityMismatch name integrity (Digest.integrity data) ∨
        CannotKeep r store now name version data fault) := by
  rcases stored_of_finds h with hdrawn | ⟨fault, hkeep, hdrawn⟩
  · rw [hdrawn]
    exact ⟨_, .altered data hne, .inl rfl⟩
  · rw [hdrawn]
    exact ⟨fault, .missing fault, .inr hkeep⟩

end Supply

/-! ## Operations -/

namespace Plan

section

variable {m : Type → Type} [Monad m]

/-- What an installation selects, and for which project. -/
def installSelection (supply : Supply m) (limit : Nat) (s : Workbook.State)
    (targets : List Target) : ExceptT Fault m (Option (Project × List Selected)) := do
  let p ← declare supply (s.project.getD initialProject) targets
  let selection ← Selected.ofProject supply limit p []
  return some (p, selection)

/-- What an upgrade selects, if any of it is new, and for which project. -/
def upgradeSelection (supply : Supply m) (limit : Nat) (s : Workbook.State)
    (targets : List String) : ExceptT Fault m (Option (Project × List Selected)) := do
  let p ← s.needProject
  let movable := s.lockfile.closure (← upgraded s.lockfile targets)
  let pins := s.lockfile.packages.entries.filterMap fun (name, entry) ↦ pin? movable name entry
  let selection ← Selected.ofProject supply limit p pins
  return if (newVersions s.lockfile selection).isEmpty then none else some (p, selection)

/-- The plan for what has been selected. -/
def ofSelection (supply : Supply m) (s : Workbook.State) (renames : RenameMaps) :
    Option (Project × List Selected) → ExceptT Fault m (Option Plan)
  | none => return none
  | some (p, selection) => return some (← Batch.planOf supply s p selection renames)

end

theorem install_eq (limit : Nat) (targets : List Target) :
    some <$> install supply limit s targets renames =
      installSelection supply limit s targets >>= ofSelection supply s renames := by
  simp [install, installSelection, ofSelection]

theorem upgrade_eq (limit : Nat) (targets : List String) :
    Upgrade.plan <$> upgrade supply limit s targets renames =
      upgradeSelection supply limit s targets >>= ofSelection supply s renames := by
  simp only [upgrade, upgradeSelection, map_bind, bind_assoc, pure_bind]
  refine bind_congr fun p ↦ bind_congr fun roots ↦ bind_congr fun selection ↦ ?_
  split
  · rfl
  · simp [ofSelection]

/-- Planning, whose first stage is the selection, keeps to the seals of the lockfile. -/
structure Guarded (supply : Supply (StateM σ)) (start : σ) (s : Workbook.State)
    (renames : RenameMaps) (selecting : ExceptT Fault (StateM σ) (Option (Project × List Selected)))
    (planning : ExceptT Fault (StateM σ) (Option Plan)) : Prop where
  staged : planning = selecting >>= ofSelection supply s renames
  /-- What is planned for a sealed version has its integrity and its functions from such bytes. -/
  kept : ∀ plan name entry integrity, (planning.run.run start).1 = .ok (some plan) →
    plan.lockfile.get? name = some entry → entry.isLocal = false →
    s.lockfile.Seals name entry.version integrity →
    entry.integrity = some integrity ∧ ∃ data a,
      supply.Yields start (supply.archive name entry.version) data ∧
      Digest.integrity data = integrity ∧
      Archive.ofBytes data s!"{name}-{entry.version}.gspkg" = .ok a ∧
      plan.Provides (Alias.mapOf renames name) entry.functions a
  /-- Where what is drawn for a sealed version is refused, planning fails: with the fault of this
  package, or with that of another one that could not be fetched either. The order in which the
  fetches end does not matter. -/
  refused : ∀ p before behind name version integrity fault now,
    selecting.run.run start = (.ok (some (p, before ++ ⟨name, .registry version⟩ :: behind)), now) →
    s.lockfile.Seals name version integrity →
    Batch.Refuses name integrity ((supply.archive name version).run.run
      ((Batch.fetchAll supply s.lockfile 0 before).run.run now).2).1 fault →
    let selection := before ++ ⟨name, .registry version⟩ :: behind
    ∃ completions,
      ((Batch.fetchAll supply s.lockfile 0 selection).run.run now).1 = .ok completions ∧
      (∀ other, (before.length, .error other) ∈ completions ↔ other = fault) ∧
      (∀ arrived, arrived.Perm completions → ∃ reported,
        Batch.collect (selection.map Batch.atHand?) arrived = .error reported ∧
          Batch.Reports completions before.length fault reported) ∧
      ∃ reported, (planning.run.run start).1 = .error reported ∧
        Batch.Reports completions before.length fault reported

/-- What is selected first and planned then is guarded. -/
theorem guarded_of_staged {selecting : ExceptT Fault (StateM σ) (Option (Project × List Selected))}
    {planning : ExceptT Fault (StateM σ) (Option Plan)}
    (hstaged : planning = selecting >>= ofSelection supply s renames)
    (hselecting : supply.Ensures start selecting fun found ↦ ∀ p selection,
      found = some (p, selection) → ∃ ds pins i files others packages,
        Selected.Selects supply start ds pins selection i files others packages) :
    Guarded supply start s renames selecting planning := by
  refine ⟨hstaged, ?_, ?_⟩
  · intro plan name entry integrity hplan hentry hregistry hseals
    have hmade : supply.Ensures start planning fun made ↦ ∀ plan, made = some plan →
        ∃ p selection, (∃ ds pins i files others packages,
          Selected.Selects supply start ds pins selection i files others packages) ∧
          ∃ batch checked,
            List.Forall₂ (Batch.Unpacks (Batch.Fetches supply start s.lockfile)) selection batch ∧
            Batch.check s renames batch = .ok checked ∧
            plan = Batch.plan s p (checked.map (Batch.withAliases renames)) := by
      rw [hstaged]
      refine hselecting.bind fun found hfound ↦ ?_
      rcases found with _ | ⟨p, selection⟩
      · exact .pure nofun
      · refine (Batch.planOf_spec s p selection renames).bind fun made hmade ↦ .pure ?_
        rintro _ ⟨rfl⟩
        exact ⟨p, selection, hfound p selection rfl, hmade⟩
    obtain ⟨p, selection, ⟨ds, pins, i, files, others, packages, hselects⟩, batch, checked,
      hunpacks, hchecks, rfl⟩ := hmade.run hplan plan rfl
    exact Batch.keeps_seal hselects hunpacks hchecks hentry hregistry hseals
  · intro p before behind name version integrity fault now hselected hseals hrefuses
    obtain ⟨completions, after, hrun, hfailed⟩ :=
      Batch.exists_refused_completions behind hseals hrefuses
    refine ⟨completions, by rw [hrun], hfailed,
      fun arrived harrived ↦ Batch.collect_refused hfailed harrived _, ?_⟩
    obtain ⟨reported, hcollect, hreports⟩ := Batch.collect_refused hfailed (.refl _) _
    refine ⟨reported, ?_, hreports⟩
    rw [hstaged, run_bind_of_ok hselected]
    exact congrArg Prod.fst
      (run_bind_of_error (Batch.run_planOf_of_collect hrun hcollect) _)

/-- Installations and upgrades keep to the seals of the lockfile, whether the bytes of an archive
are in the store or come from the registry. Other bytes are refused with the mismatch if they are
in the store or can be put into it, where the registry's go before they are compared. -/
theorem guarded (r : Registry) (store : Archive.Store) (start : World × IndexCache) (limit : Nat)
    (s : Workbook.State) (renames : RenameMaps) (targets : List Target) (names : List String) :
    let supply := Supply.ofRegistry r store
    Guarded supply start s renames (installSelection supply limit s targets)
        (some <$> install supply limit s targets renames) ∧
      Guarded supply start s renames (upgradeSelection supply limit s names)
        (Upgrade.plan <$> upgrade supply limit s names renames) ∧
      ∀ now name version data,
        (((supply.archive name version).run.run now).1 = .ok data →
          Supply.Finds r store now name version data) ∧
        (Supply.Finds r store now name version data →
          ∀ integrity, Digest.integrity data ≠ integrity → ∃ fault,
            Batch.Refuses name integrity ((supply.archive name version).run.run now).1 fault ∧
            (fault = .integrityMismatch name integrity (Digest.integrity data) ∨
              Supply.CannotKeep r store now name version data fault)) := by
  intro supply
  refine ⟨guarded_of_staged (install_eq limit targets) ?_,
    guarded_of_staged (upgrade_eq limit names) ?_, ?_⟩
  · refine (declare_spec _ targets).bind fun p _ ↦ ?_
    refine (Selected.ofProject_selects limit p []).bind fun selection hselects ↦ .pure ?_
    rintro _ _ ⟨rfl, rfl⟩
    obtain ⟨ds, i, files, others, packages, _, hselects⟩ := hselects
    exact ⟨ds, [], i, files, others, packages, hselects⟩
  · refine (Supply.Ensures.except fun _ _ ↦ trivial).bind fun p _ ↦ ?_
    refine (Supply.Ensures.except fun _ _ ↦ trivial).bind fun roots _ ↦ ?_
    refine (Selected.ofProject_selects limit p _).bind fun selection hselects ↦ .pure ?_
    intro q chosen hchosen
    split at hchosen
    · cases hchosen
    · cases hchosen
      obtain ⟨ds, i, files, others, packages, _, hselects⟩ := hselects
      exact ⟨ds, _, i, files, others, packages, hselects⟩
  · exact fun now name version data ↦
      ⟨Supply.finds_of_stored, fun hfinds integrity ↦ Supply.refuses_of_finds hfinds⟩

end Plan

/-! ## Altered archives -/

/-- A program with an archive directory and a registry of this index, and with these other files. -/
def stocked (index : String) (entries : List (Place × Files.Entry)) : World × IndexCache :=
  ({ files := { entries := (["r"], .directory) :: (["r", "index.json"], .file index.toUTF8) ::
      (["c"], .directory) :: entries }
     now := ⟨0⟩ }, {})

def keeper : Supply (StateM (World × IndexCache)) :=
  .ofRegistry (.directory "/r") ⟨"/c"⟩

/-- The bytes are kept as the archive of the only package of the registry. -/
def keeping (data : ByteArray) : World × IndexCache :=
  stocked "\x7b\"base\":\x7b\"versions\":\x7b\"1.0.0\":\x7b\x7d\x7d\x7d\x7d"
    [(["c", "base"], .directory), (["c", "base", "1.0.0.gspkg"], .file data)]

/-- The registry has the bytes, and a file is where they would be kept. -/
def obstructed (data : ByteArray) : World × IndexCache :=
  stocked "\x7b\"base\":\x7b\"versions\":\x7b\"1.0.0\":\x7b\"path\":\"b\"\x7d\x7d\x7d\x7d"
    [(["r", "b"], .file data), (["c", "base"], .file .empty)]

/-- The bytes are kept, and the registry has lost the archive of another package. -/
def losing (data : ByteArray) : World × IndexCache :=
  stocked ("\x7b\"absent\":\x7b\"versions\":\x7b\"1.0.0\":\x7b\x7d\x7d\x7d," ++
      "\"base\":\x7b\"versions\":\x7b\"1.0.0\":\x7b\x7d\x7d\x7d\x7d")
    [(["c", "base"], .directory), (["c", "base", "1.0.0.gspkg"], .file data)]

/-- The integrity of the package as it was published. -/
def baseIntegrity : String :=
  "sha256:0a4e25c206a98ba75db3826374a4863d9e3b4c2fb292ce66a2f9de604a0b5ba7"

theorem integrity_other_ne : Digest.integrity "other".toUTF8 ≠ baseIntegrity := by
  decide +kernel

/-- A workbook in which the package is locked, under another text of the version. -/
def sealing (dependencies : List String) : Workbook.State where
  project := some { dependencies }
  lockfile := ⟨.ofList [("base", {
    version := "1.0"
    resolved := some (Locked.registryOrigin "base" "1.0")
    integrity := some baseIntegrity })]⟩

theorem seals_sealing (dependencies : List String) :
    (sealing dependencies).lockfile.Seals "base" "1.0.0" baseIntegrity :=
  ⟨_, rfl, Locked.isLocal_registryOrigin rfl,
    .inr ⟨⟨1, 0, 0, none, none⟩, ⟨1, 0, 0, none, none⟩, rfl, rfl, rfl⟩, rfl, by decide⟩

/-- The version of what comes from the registry. -/
def Origin.version? : Origin → Option String
  | .file _ _ => none
  | .registry version => some version

theorem Origin.eq_registry {origin : Origin} {version : String}
    (h : origin.version? = some version) : origin = .registry version := by
  cases origin with
  | file path archive => cases h
  | registry found => exact congrArg Origin.registry (Option.some_inj.mp h)

/-- A selection from the registry is known by its names and versions. -/
theorem Selected.eq_of_versions {selection : List Selected} {versions : List (String × String)}
    (h : selection.map (fun selected ↦ (selected.name, selected.origin.version?)) =
      versions.map fun (name, version) ↦ (name, some version)) :
    selection = versions.map fun (name, version) ↦ ⟨name, .registry version⟩ := by
  induction versions generalizing selection with
  | nil => exact List.map_eq_nil_iff.mp h
  | cons version rest ih =>
    obtain ⟨⟨name, origin⟩, others, rfl, hfirst, hrest⟩ := List.map_eq_cons_iff.mp h
    obtain ⟨rfl, horigin⟩ := Prod.mk.inj hfirst
    obtain rfl : origin = .registry version.2 := Origin.eq_registry horigin
    rw [ih hrest]
    rfl

namespace Plan

/-- What is selected, by name and version. -/
def versionsOf (result : Except Fault (Option (Project × List Selected))) :
    Option (Option (List (String × Option String))) :=
  result.toOption.map fun found ↦ found.map fun (_, selection) ↦
    selection.map fun selected ↦ (selected.name, selected.origin.version?)

theorem exists_of_versionsOf {result : Except Fault (Option (Project × List Selected))}
    (versions : List (String × String))
    (h : versionsOf result = some (some (versions.map fun (name, version) ↦
      (name, some version)))) :
    ∃ p, result = .ok (some (p, versions.map fun (name, version) ↦
      ⟨name, .registry version⟩)) := by
  obtain ⟨found, rfl, hversions⟩ := exists_of_map_toOption h
  obtain ⟨⟨p, selection⟩, rfl, hselection⟩ := Option.map_eq_some_iff.mp hversions
  exact ⟨p, Selected.eq_of_versions hselection ▸ rfl⟩

theorem exists_install_keeping : ∃ plan entry,
    ((install keeper 100 (sealing ["base"]) [] .empty).run.run
        (keeping (shelved "base"))).1 = .ok plan ∧
      plan.lockfile.get? "base" = some entry ∧ entry.version = "1.0.0" ∧
      entry.isLocal = false := by
  have hread : (((install keeper 100 (sealing ["base"]) [] .empty).run.run
      (keeping (shelved "base"))).1.toOption.map fun plan ↦
        (plan.lockfile.get? "base").map fun entry ↦ (entry.version, entry.isLocal)) =
      some (some ("1.0.0", false)) := by
    simp only [install, Selected.ofProject, Selected.resolved, Resolution.resolve_eq_resolveWithin]
    decide +kernel
  obtain ⟨plan, hplan, hlocked⟩ := exists_of_map_toOption hread
  obtain ⟨entry, hentry, hfields⟩ := Option.map_eq_some_iff.mp hlocked
  obtain ⟨hversion, hregistry⟩ := Prod.mk.inj hfields
  exact ⟨plan, entry, hplan, hentry, hversion, hregistry⟩

/-- From the altered bytes in the store, only the package is selected, and the bytes are drawn. -/
theorem exists_installSelection_keeping : ∃ p now,
    (installSelection keeper 100 (sealing ["base"]) []).run.run (keeping "other".toUTF8) =
        (.ok (some (p, [⟨"base", .registry "1.0.0"⟩])), now) ∧
      ((keeper.archive "base" "1.0.0").run.run now).1 = .ok "other".toUTF8 := by
  have hread : versionsOf ((installSelection keeper 100 (sealing ["base"]) []).run.run
        (keeping "other".toUTF8)).1 = some (some [("base", some "1.0.0")]) ∧
      ((keeper.archive "base" "1.0.0").run.run ((installSelection keeper 100 (sealing ["base"])
        []).run.run (keeping "other".toUTF8)).2).1.toOption = some "other".toUTF8 := by
    simp only [installSelection, Selected.ofProject, Selected.resolved,
      Resolution.resolve_eq_resolveWithin]
    decide +kernel
  obtain ⟨p, hselected⟩ := exists_of_versionsOf [("base", "1.0.0")] hread.1
  exact ⟨p, _, Prod.ext hselected rfl, toOption_eq_some_iff.mp hread.2⟩

/-- The kept bytes are installed if they are the sealed ones, and refused otherwise. -/
theorem guarded_tampered :
    (∃ plan entry, ((install keeper 100 (sealing ["base"]) [] .empty).run.run
        (keeping (shelved "base"))).1 = .ok plan ∧ plan.lockfile.get? "base" = some entry ∧
        entry.integrity = some baseIntegrity) ∧
      ((install keeper 100 (sealing ["base"]) [] .empty).run.run (keeping "other".toUTF8)).1 =
        .error (.integrityMismatch "base" baseIntegrity (Digest.integrity "other".toUTF8)) := by
  have hguarded (data : ByteArray) := (guarded (.directory "/r") ⟨"/c"⟩ (keeping data) 100
    (sealing ["base"]) .empty [] []).1
  constructor
  · obtain ⟨plan, entry, hplan, hentry, hversion, hregistry⟩ := exists_install_keeping
    have hplanned : ((some <$> install keeper 100 (sealing ["base"]) [] .empty).run.run
        (keeping (shelved "base"))).1 = .ok (some plan) := by
      rw [run_map, hplan]
      rfl
    obtain ⟨hintegrity, _⟩ := (hguarded (shelved "base")).kept plan "base" entry baseIntegrity
      hplanned hentry hregistry (hversion ▸ seals_sealing ["base"])
    exact ⟨plan, entry, hplan, hentry, hintegrity⟩
  · obtain ⟨p, now, hselected, hdata⟩ := exists_installSelection_keeping
    have hrefuses : Batch.Refuses "base" baseIntegrity (.ok "other".toUTF8) _ :=
      .altered _ integrity_other_ne
    rw [← hdata] at hrefuses
    obtain ⟨completions, hcompletions, _, _, fault, hfault, hreports⟩ :=
      (hguarded "other".toUTF8).refused p [] [] "base" "1.0.0" baseIntegrity _ now hselected
        (seals_sealing ["base"]) hrefuses
    rw [run_map] at hfault
    exact hreports.eq_of_single hcompletions ▸ eq_error_of_map hfault

/-- Other bytes than the sealed ones are found for a package that is selected, and the installation
ends with the fault. -/
def EndsAltered (start : World × IndexCache) (s : Workbook.State) (fault : Fault) : Prop :=
  ∃ p selection now, (installSelection keeper 100 s []).run.run start =
      (.ok (some (p, selection)), now) ∧
    ⟨"base", .registry "1.0.0"⟩ ∈ selection ∧ s.lockfile.Seals "base" "1.0.0" baseIntegrity ∧
    (∃ data, Supply.Finds (.directory "/r") ⟨"/c"⟩ now "base" "1.0.0" data ∧
      Digest.integrity data ≠ baseIntegrity) ∧
    ((install keeper 100 s [] .empty).run.run start).1 = .error fault

theorem endsAltered_sealing {start : World × IndexCache} {dependencies : List String}
    {fault : Fault} (versions : List (String × String))
    (hbase : ("base", "1.0.0") ∈ versions)
    (h : let selecting := (installSelection keeper 100 (sealing dependencies) []).run.run start
      let kept := Archive.Store.kept? ⟨"/c"⟩ selecting.2.1.files "base" "1.0.0"
      versionsOf selecting.1 =
          some (some (versions.map fun (name, version) ↦ (name, some version))) ∧
        (kept = some "other".toUTF8 ∨ kept = none ∧
          (((Registry.directory "/r").archive "base" "1.0.0").run.run selecting.2).1.toOption =
            some "other".toUTF8) ∧
        ((install keeper 100 (sealing dependencies) [] .empty).run.run start).1.map (fun _ ↦ ()) =
          .error fault) :
    EndsAltered start (sealing dependencies) fault := by
  obtain ⟨hversions, hfinds, hfault⟩ := h
  rw [toOption_eq_some_iff] at hfinds
  obtain ⟨p, hselected⟩ := exists_of_versionsOf versions hversions
  exact ⟨p, _, _, Prod.ext hselected rfl, List.mem_map_of_mem hbase, seals_sealing dependencies,
    ⟨_, hfinds, integrity_other_ne⟩, eq_error_of_map hfault⟩

/-- Other faults than the mismatch: that of the store, which is to keep the bytes before they are
compared, and that of another package. -/
theorem ends_without_mismatch :
    EndsAltered (obstructed "other".toUTF8) (sealing ["base"])
        (.ofSystem "Failed to create /c/base") ∧
      EndsAltered (losing "other".toUTF8) (sealing ["absent", "base"])
        (.versionNotFound "absent" "1.0.0") := by
  constructor
  · refine endsAltered_sealing [("base", "1.0.0")] (by decide) ?_
    simp only [install, installSelection, Selected.ofProject, Selected.resolved,
      Resolution.resolve_eq_resolveWithin]
    decide +kernel
  · refine endsAltered_sealing [("absent", "1.0.0"), ("base", "1.0.0")] (by decide) ?_
    simp only [install, installSelection, Selected.ofProject, Selected.resolved,
      Resolution.resolve_eq_resolveWithin]
    decide +kernel

end Plan

end SheetPackages
