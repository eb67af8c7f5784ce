import SheetPackages.Proofs.Plan.Fitting

/-!
# Steady supplies

A supply is steady when a draw that has succeeded always gives the same afterwards: nobody touches
the registry or the archives meanwhile, and what planning itself leaves behind, such as archives
that it keeps, does not matter. Then what planning has made of the requirements of a project it
makes again, and an archive is accepted under the integrity that it had before. Draws that have
failed may succeed later.
-/

namespace SheetPackages

variable {σ α β : Type} {supply : Supply (StateM σ)} {start now : σ}

namespace Supply

/-- From every state that is reached from `now`, the computation leads to one that is reached from
there, and ends with `a`. -/
def Always (supply : Supply (StateM σ)) (now : σ) (t : ExceptT Fault (StateM σ) α) (a : α) : Prop :=
  ∀ s, supply.Reached now s → supply.Reached s (t.run.run s).2 ∧ (t.run.run s).1 = .ok a

/-- What the computation has ended with it always ends with afterwards. -/
def Repeatable (supply : Supply (StateM σ)) (start : σ) (t : ExceptT Fault (StateM σ) α) : Prop :=
  ∀ s, supply.Reached start s → supply.Leads s t (supply.Always · t)

/-- Draws that succeed are repeatable. -/
structure Steady (supply : Supply (StateM σ)) (start : σ) : Prop where
  index : supply.Repeatable start supply.index
  archive : ∀ name version, supply.Repeatable start (supply.archive name version)
  locate : ∀ path, supply.Repeatable start (supply.locate path)
  file : ∀ path, supply.Repeatable start (supply.file path)

/-! ## Computations -/

namespace Always

variable {t : ExceptT Fault (StateM σ) α} {a : α}

theorem lasts (t : ExceptT Fault (StateM σ) α) (a : α) : supply.Lasts (supply.Always · t a) :=
  fun _ _ hafter h s hs ↦ h s (hafter.trans hs)

theorem pure (a : α) : supply.Always now (pure a) a :=
  fun _ _ ↦ ⟨.start, rfl⟩

theorem except {result : Except Fault α} (h : result = .ok a) :
    supply.Always now (liftM result) a :=
  fun _ _ ↦ ⟨.start, h⟩

/-- What comes behind the computation begins with what that ends with. -/
theorem run_bind (ht : supply.Always now t a) (f : α → ExceptT Fault (StateM σ) β) {s : σ}
    (hs : supply.Reached now s) :
    ∃ after, supply.Reached s after ∧ (t >>= f).run.run s = (f a).run.run after := by
  obtain ⟨hreached, hresult⟩ := ht s hs
  simp only [ExceptT.run_bind, StateT.run_bind]
  cases heq : t.run.run s with
  | mk result after =>
    rw [heq] at hreached hresult
    cases hresult
    exact ⟨after, hreached, rfl⟩

theorem bind (ht : supply.Always now t a) {f : α → ExceptT Fault (StateM σ) β} {b : β}
    (hf : supply.Always now (f a) b) : supply.Always now (t >>= f) b := by
  intro s hs
  obtain ⟨after, hafter, hrun⟩ := ht.run_bind f hs
  obtain ⟨hlast, hend⟩ := hf after (hs.trans hafter)
  rw [hrun]
  exact ⟨hafter.trans hlast, hend⟩

theorem caught (h : supply.Always now t a) :
    supply.Always now (ExceptT.lift t.run) (.ok a) :=
  fun s hs ↦ ⟨(h s hs).1, congrArg Except.ok (h s hs).2⟩

theorem yields (h : supply.Always now t a) (hnow : supply.Reached start now) :
    supply.Yields start t a :=
  ⟨now, hnow, (h now .start).2⟩

end Always

namespace Repeatable

variable {t : ExceptT Fault (StateM σ) α}

theorem pure (a : α) : supply.Repeatable start (pure a : ExceptT Fault (StateM σ) α) :=
  fun _ _ ↦ .pure (Always.pure a)

theorem except (result : Except Fault α) :
    supply.Repeatable start (liftM result : ExceptT Fault (StateM σ) α) :=
  fun _ _ ↦ .except fun _ ↦ Always.except

theorem throw {fault : Fault} :
    supply.Repeatable start (throw fault : ExceptT Fault (StateM σ) α) :=
  fun _ _ ↦ .throw

theorem bind (ht : supply.Repeatable start t) {f : α → ExceptT Fault (StateM σ) β}
    (hf : ∀ a, supply.Repeatable start (f a)) : supply.Repeatable start (t >>= f) := by
  intro s hs
  refine (ht s hs).bind fun between a hbetween ha ↦ ?_
  refine (hf a between (hs.trans hbetween)).imp fun after b hafter hb ↦ ?_
  exact (Always.lasts t a between after hafter ha).bind hb

end Repeatable

end Supply

/-! ## Requirements and selections -/

theorem Plan.repeatable_requirementOf (hsteady : supply.Steady start) (target : Target) :
    supply.Repeatable start (requirementOf supply target) := by
  cases target with
  | requirement text => exact .except (Dependency.read text)
  | archive path =>
    refine (hsteady.locate path).bind fun found ↦ (hsteady.file found).bind fun a ↦ ?_
    simp only
    split
    · exact .pure _
    · exact .throw

/-- Targets mean the same requirements whatever project these are put into. -/
theorem Plan.always_declare {targets : List Target} {ds : List Dependency}
    (h : List.Forall₂ (fun target ↦ supply.Always now (requirementOf supply target)) targets ds)
    (p : Project) : supply.Always now (declare supply p targets) (ds.foldl Project.upsert p) := by
  induction h generalizing p with
  | nil => exact .pure p
  | cons hd _ ih => exact hd.bind (ih _)

namespace Selected

theorem repeatable_gather (hsteady : supply.Steady start) (ds : List Dependency) :
    supply.Repeatable start (gather supply ds) := by
  induction ds with
  | nil => exact .pure _
  | cons d rest ih =>
    rw [gather]
    split
    · next path _ =>
      refine (hsteady.file path).bind fun a ↦ ?_
      exact (Supply.Repeatable.except _).bind fun needs ↦ ih.bind fun _ ↦ .pure _
    · exact ih.bind fun _ ↦ .pure _

theorem repeatable_ofProject (hsteady : supply.Steady start) (limit : Nat) (p : Project)
    (pins : List Dependency) : supply.Repeatable start (ofProject supply limit p pins) := by
  refine (Supply.Repeatable.except _).bind fun ds ↦ ?_
  refine (repeatable_gather hsteady ds).bind fun (files, others) ↦ ?_
  simp only
  split
  · exact .pure _
  · exact hsteady.index.bind fun i ↦ (Supply.Repeatable.except _).bind fun found ↦ .pure _

/-- Only the requirements of a project matter. -/
theorem ofProject_congr {p q : Project} (h : q.dependencies = p.dependencies) (limit : Nat)
    (pins : List Dependency) : ofProject supply limit q pins = ofProject supply limit p pins := by
  rw [ofProject, ofProject, Project.requirements, Project.requirements, h]

end Selected

/-! ## Archives -/

namespace Batch

/-- The bytes of the archive are always there. -/
def Keeps (supply : Supply (StateM σ)) (now : σ) (name version : String) (a : Archive) : Prop :=
  ∃ data, supply.Always now (supply.archive name version) data ∧
    Archive.ofBytes data s!"{name}-{version}.gspkg" = .ok a

theorem fetching_keeps (hsteady : supply.Steady start) (l : Lockfile) :
    Fetching supply start l (Keeps supply) where
  leads s hs name version := (leads_fetch (hsteady.archive name version s hs) _).imp
    fun _ _ _ ⟨data, hdata, hread, _⟩ ↦ ⟨data, hdata, hread⟩
  lasts name version a s after hafter h := by
    obtain ⟨data, hdata, hread⟩ := h
    exact ⟨data, Supply.Always.lasts _ data s after hafter hdata, hread⟩

/-- An archive that is there is fetched if its own integrity is expected, or none. -/
theorem Keeps.always_fetch {name version : String} {a : Archive}
    (h : Keeps supply now name version a) {expected : Option String}
    (hexpected : ∀ integrity ∈ expected, integrity = a.integrity) :
    supply.Always now (fetch supply name version expected) a := by
  obtain ⟨data, hdata, hread⟩ := h
  refine hdata.bind ?_
  cases expected with
  | none => exact .except hread
  | some integrity =>
    have hverify : Digest.verify name data integrity = .ok () := by
      rw [Digest.verify, hexpected integrity rfl, (Archive.of_ofBytes hread).2, if_pos rfl]
      rfl
    exact (Supply.Always.except hverify).bind (.except hread)

/-- What every fetch gives that expects the integrity in the lockfile. -/
def AlwaysFetches (supply : Supply (StateM σ)) (now : σ) (l : Lockfile) (name version : String)
    (a : Archive) : Prop :=
  supply.Always now (fetch supply name version (lockedIntegrity? l name version)) a

/-- The completions that fill the slots behind the given ones with the packages of the batch. -/
theorem exists_always_fetchAll {l : Lockfile} {selection : List Selected} {batch : List Unpacked}
    (h : List.Forall₂ (Unpacks (AlwaysFetches supply now l)) selection batch) (position : Nat) :
    ∃ completions, supply.Always now (fetchAll supply l position selection) completions ∧
      ∀ slots : List (Option Unpacked), slots.length = position →
        collect (slots ++ selection.map atHand?) completions =
          .ok (slots.filterMap id ++ batch) := by
  induction h generalizing position with
  | nil =>
    refine ⟨[], .pure [], fun slots _ ↦ ?_⟩
    rw [List.map_nil, List.append_nil, List.append_nil]
    rfl
  | @cons selected u rest more hselected _ ih =>
    obtain ⟨completions, halways, hcollect⟩ := ih (position + 1)
    -- With the package in the next slot, what follows goes on from there.
    have hnext (slots : List (Option Unpacked)) (hslots : slots.length = position) :
        collect (slots ++ some u :: rest.map atHand?) completions =
          .ok (slots.filterMap id ++ u :: more) := by
      have hlength : (slots ++ [some u]).length = position + 1 := by
        rw [List.length_append, hslots, List.length_singleton]
      have h := hcollect (slots ++ [some u]) hlength
      rwa [List.filterMap_append, List.append_assoc, List.append_assoc] at h
    cases hselected with
    | file name path a => exact ⟨completions, halways, hnext⟩
    | @registry name version a hfetched =>
      refine ⟨(position, .ok (.ofArchive name version (Locked.registryOrigin name version) a)) ::
        completions, hfetched.caught.bind (halways.bind (.pure _)), fun slots hslots ↦ ?_⟩
      change collect ((slots ++ none :: rest.map atHand?).set position (some _)) completions = _
      rw [← hslots, List.set_append_right _ _ (Nat.le_refl _), Nat.sub_self, List.set_cons_zero]
      exact hnext slots hslots

theorem always_ofSelection {l : Lockfile} {selection : List Selected} {batch : List Unpacked}
    (h : List.Forall₂ (Unpacks (AlwaysFetches supply now l)) selection batch) :
    supply.Always now (ofSelection supply l selection) batch := by
  obtain ⟨completions, halways, hcollect⟩ := exists_always_fetchAll h 0
  exact halways.bind (.except (hcollect [] rfl))

/-! ## Plans -/

theorem exists_of_lockedIntegrity? {l : Lockfile} {name version integrity : String}
    (h : lockedIntegrity? l name version = some integrity) :
    ∃ entry, l.get? name = some entry ∧ entry.integrity = some integrity := by
  obtain ⟨entry, hentry, h⟩ := Option.bind_eq_some_iff.mp h
  split at h
  · cases h
  · exact ⟨entry, hentry, (Option.filter_eq_some_iff.mp h).1⟩

/-- If the lockfile has an integrity for the package, it is the package's own. -/
def Agrees (l : Lockfile) (u : Unpacked) : Prop :=
  ∀ entry, l.get? u.name = some entry → ∀ integrity ∈ entry.integrity, integrity = u.integrity

theorem forall₂_always_of_agrees {l : Lockfile} {selection : List Selected} {batch : List Unpacked}
    (h : List.Forall₂ (Unpacks (Keeps supply now)) selection batch)
    (hagrees : ∀ u ∈ batch, Agrees l u) :
    List.Forall₂ (Unpacks (AlwaysFetches supply now l)) selection batch := by
  induction h with
  | nil => exact .nil
  | @cons selected u _ _ hselected _ ih =>
    obtain ⟨hu, hrest⟩ := List.forall_mem_cons.mp hagrees
    refine .cons ?_ (ih hrest)
    cases hselected with
    | file name path a => exact .file name path a
    | registry hkept =>
      refine .registry (hkept.always_fetch fun integrity hintegrity ↦ ?_)
      obtain ⟨entry, hentry, hsome⟩ := exists_of_lockedIntegrity? hintegrity
      exact hu entry hentry integrity hsome

/-- A selection is planned for again when no lockfile stands against its archives. -/
theorem always_planOf {selection : List Selected} {batch checked : List Unpacked}
    (hbatch : List.Forall₂ (Unpacks (Keeps supply now)) selection batch) {s : Workbook.State}
    {renames : RenameMaps} (hagrees : ∀ u ∈ batch, Agrees s.lockfile u)
    (hchecked : check s renames batch = .ok checked) (p : Project) :
    supply.Always now (planOf supply s p selection renames)
      (plan s p (checked.map (withAliases renames))) :=
  (always_ofSelection (forall₂_always_of_agrees hbatch hagrees)).bind
    ((Supply.Always.except hchecked).bind (.pure _))

end Batch

end SheetPackages
