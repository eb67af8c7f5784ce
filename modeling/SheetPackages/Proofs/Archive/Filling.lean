import SheetPackages.Archive.Filling
import SheetPackages.Proofs.Archive.Keeping
import SheetPackages.Proofs.World.Replacing

/-!
# Archives that are kept at the same time

Calls that keep archives may take their steps in any order. What is kept of a version at any time
was kept from the start or is all that one of the calls was to keep, and it does not go away. It is
replaced when two calls that differ in it have both found nothing. Therefore archives stay as they
are, in whatever order the steps are taken, just if calls for the same version that find nothing and
could succeed carry the same bytes. Calls that drop archives are not described.
-/

namespace SheetPackages.Archive.Store

open Files (IsName Retains)

variable {s : Store} {c : Filling} {f g : Files} {name version path : String} {data : ByteArray}

/-- A call without others in between keeps an archive in three steps. -/
theorem three_steps (s : Store) (c : Filling) :
    s.step c .called >>= s.step c >>= s.step c = Stage.done <$> s.put c.name c.version c.data := by
  simp only [step, put, bind_assoc, map_eq_pure_bind]
  refine bind_congr fun path ↦ bind_congr fun f ↦ ?_
  cases f.isFile path <;> simp [step]

/-! ## Places -/

/-- An archive that can be reached is in a directory in that of the store. -/
theorem locate_archive {root place : Place} (hroot : f.locate s.root = .ok root)
    (hpath : s.pathOf name version = .ok path) (hplace : f.locate path = .ok place) :
    place = root ++ [name] ++ [version ++ "." ++ extension] ∧
      f.entry? (root ++ [name]) = some .directory ∧
      f.step (root ++ [name]) (version ++ "." ++ extension).toList = .ok place := by
  obtain ⟨hname, hfile, rfl⟩ := of_pathOf hpath
  rw [Files.locate_join_join hroot hname hfile] at hplace
  obtain ⟨middle, hmiddle, hlast⟩ := exists_of_bind_eq_ok hplace
  obtain ⟨hdirectory, rfl⟩ := Files.step_name hfile hlast
  obtain ⟨_, rfl⟩ := Files.step_name hname hmiddle
  exact ⟨rfl, hdirectory, hlast⟩

theorem Opened.exists_root (h : s.Opened f) :
    ∃ root, f.locate s.root = .ok root ∧ f.entry? root = some .directory :=
  Files.find_eq_ok_iff.mp (Files.isDirectory_iff.mp h.directory)

/-! ## What is kept -/

theorem Opened.widens (h : s.Opened f) (hwidens : f.Widens g) : s.Opened g :=
  h.within hwidens.within (hwidens.rooted h.rooted)

/-- New directories bring no archives. -/
theorem kept?_of_widens (h : s.Opened f) (hwidens : f.Widens g) (name version : String) :
    s.kept? g name version = s.kept? f name version := by
  refine Option.ext fun data ↦ ⟨fun hkept ↦ ?_, kept?_within hwidens.within⟩
  obtain ⟨path, hpath, hread⟩ := kept?_eq_some_iff.mp hkept
  obtain ⟨hname, hfile, rfl⟩ := of_pathOf hpath
  exact kept?_eq_some_iff.mpr
    ⟨_, hpath, hwidens.read_join h.rooted h.directory hname hfile hread⟩

theorem version_inj {version' : String}
    (h : version ++ "." ++ extension = version' ++ "." ++ extension) : version = version' := by
  rw [← String.toList_inj, String.toList_append, String.toList_append, String.toList_append,
    String.toList_append] at h
  exact String.toList_inj.mp (List.append_cancel_right (List.append_cancel_right h))

/-- An archive that is written replaces the one of its version and no other. -/
theorem kept?_of_write (h : s.Opened f) (hpath : s.pathOf name version = .ok path)
    (hwrite : f.write path data = .ok g) :
    s.Opened g ∧ ∀ name' version', s.kept? g name' version' =
      if name' = name ∧ version' = version then some data else s.kept? f name' version' := by
  have hread := Files.read_of_write hwrite
  obtain ⟨place, hplace, hentry, rfl⟩ := Files.write_eq_ok_iff.mp hwrite
  obtain ⟨root, hroot, _⟩ := h.exists_root
  obtain ⟨rfl, hdirectory, _⟩ := locate_archive hroot hpath hplace
  have hhouses := Files.houses_put hentry data
  refine ⟨⟨h.rooted.put_file hdirectory hentry data, hhouses.isDirectory h.directory⟩,
    fun name' version' ↦ ?_⟩
  by_cases hsame : name' = name ∧ version' = version
  · obtain ⟨rfl, rfl⟩ := hsame
    rw [if_pos ⟨rfl, rfl⟩, kept?_of_pathOf hpath, hread]
    rfl
  · rw [if_neg hsame]
    cases hpath' : s.pathOf name' version' with
    | error fault => rw [kept?, kept?, hpath']; rfl
    | ok path' =>
      have hother (place : Place) (h : place ≠ root ++ [name] ++ [version ++ "." ++ extension]) :
          Files.entry? (f.put (root ++ [name] ++ [version ++ "." ++ extension]) (.file data)) place =
            f.entry? place := by
        rw [Files.entry?_put (Files.ne_nil_of_not_directory hentry), if_neg h]
      obtain ⟨hname, hfile, rfl⟩ := of_pathOf hpath'
      rw [kept?_of_pathOf hpath', kept?_of_pathOf hpath']
      refine congrArg Except.toOption (Files.read_join_congr hname hfile (hhouses.locate hroot)
        hroot (hother _ ?_) (hother _ ?_) (hother _ ?_))
      · simp
      · simp
      · intro heq
        obtain ⟨hfirst, hlast⟩ := List.append_inj' heq rfl
        exact hsame ⟨by simpa using hfirst, version_inj (List.singleton_inj.mp hlast)⟩

/-! ## Steps -/

/-- A step of a call: its result and the world afterwards. -/
inductive Takes (s : Store) (c : Filling) (w : World) : Stage → Except Fault Stage → World → Prop
  | refuse {fault : Fault} (hpath : s.pathOf c.name c.version = .error fault) :
    Takes s c w .called (.error fault) w
  | find {path : String} (hpath : s.pathOf c.name c.version = .ok path)
    (hfile : w.files.isFile path = true) : Takes s c w .called (.ok (.done path)) w
  | miss {path : String} (hpath : s.pathOf c.name c.version = .ok path)
    (hfile : w.files.isFile path = false) : Takes s c w .called (.ok (.absent path)) w
  | block {path : String} {fault : Fault} {refusal : Files.Refusal} {g : Files}
    (hmade : w.files.makeDirectories (Path.join s.root c.name) = (.error refusal, g)) :
    Takes s c w (.absent path) (.error fault) { w with files := g }
  | prepare {path : String} {g : Files}
    (hmade : w.files.makeDirectories (Path.join s.root c.name) = (.ok (), g)) :
    Takes s c w (.absent path) (.ok (.written path)) { w with files := g }
  | fail {path : String} {fault : Fault} {refusal : Files.Refusal}
    (hwritten : w.files.write path c.data = .error refusal) :
    Takes s c w (.written path) (.error fault) w
  | move {path : String} {g : Files} (hwritten : w.files.write path c.data = .ok g) :
    Takes s c w (.written path) (.ok (.done path)) { w with files := g }
  | rest {path : String} : Takes s c w (.done path) (.ok (.done path)) w

theorem runIn_called (hpath : s.pathOf c.name c.version = .ok path) (w : World) :
    (s.step c .called).runIn w =
      (.ok (if w.files.isFile path = true then .done path else .absent path), w) := by
  have hrun : (s.step c .called).runIn w =
      ((if w.files.isFile path = true then pure (.done path) else pure (.absent path) :
        Action Stage)).runIn w := by
    simp only [step, hpath]
    rfl
  rw [hrun]
  split <;> rfl

theorem takes_step (s : Store) (c : Filling) (w : World) (stage : Stage) :
    Takes s c w stage ((s.step c stage).runIn w).1 ((s.step c stage).runIn w).2 := by
  cases stage with
  | called =>
    cases hpath : s.pathOf c.name c.version with
    | error fault =>
      simp only [step, hpath]
      exact .refuse hpath
    | ok path =>
      rw [runIn_called hpath]
      cases hfile : w.files.isFile path with
      | true => exact .find hpath hfile
      | false => exact .miss hpath hfile
  | absent path =>
    simp only [step, Action.runIn_bind, Action.runIn_makeDirectories]
    cases hmade : w.files.makeDirectories (Path.join s.root c.name) with
    | mk made g =>
      cases made with
      | error refusal => exact .block hmade
      | ok _ => exact .prepare hmade
  | written path =>
    simp only [step, Action.runIn_bind, Action.runIn_write]
    cases hwritten : w.files.write path c.data with
    | error refusal => exact .fail hwritten
    | ok g => exact .move hwritten
  | done path => exact .rest

/-! ## Calls that succeed by themselves -/

/-- Nothing is kept, and the call would keep its archive if it were made alone. -/
def Fillable (s : Store) (w : World) (c : Filling) : Prop :=
  s.kept? w.files c.name c.version = none ∧
    ∃ path after, (s.put c.name c.version c.data).runIn w = (.ok path, after)

theorem isFile_eq_false_iff (h : s.pathOf name version = .ok path) :
    f.isFile path = false ↔ s.kept? f name version = none := by
  rw [kept?_of_pathOf h, Bool.eq_false_iff, Ne, Files.isFile_iff]
  cases f.read path <;> simp [Except.toOption]

theorem fillable_iff {w : World} : s.Fillable w c ↔
    ∃ path f g, s.pathOf c.name c.version = .ok path ∧ w.files.isFile path = false ∧
      w.files.makeDirectories (Path.join s.root c.name) = (.ok (), f) ∧
      f.write path c.data = .ok g := by
  constructor
  · rintro ⟨hnone, path, after, hrun⟩
    cases hpath : s.pathOf c.name c.version with
    | error fault =>
      rw [put, hpath] at hrun
      cases hrun
    | ok path' =>
      have hfile := (isFile_eq_false_iff hpath).mpr hnone
      rw [runIn_put hpath, if_neg (Bool.eq_false_iff.mp hfile)] at hrun
      simp only [Action.runIn_bind, Action.runIn_makeDirectories, Action.runIn_write] at hrun
      cases hmade : w.files.makeDirectories (Path.join s.root c.name) with
      | mk made f =>
        rw [hmade] at hrun
        cases made with
        | error refusal => cases hrun
        | ok _ =>
          cases hwritten : f.write path' c.data with
          | error refusal =>
            simp only [Except.mapError, hwritten] at hrun
            cases hrun
          | ok g => exact ⟨path', f, g, rfl, hfile, rfl, hwritten⟩
  · rintro ⟨path, f, g, hpath, hfile, hmade, hwritten⟩
    refine ⟨(isFile_eq_false_iff hpath).mp hfile, path, { w with files := g }, ?_⟩
    rw [runIn_put hpath, if_neg (Bool.eq_false_iff.mp hfile)]
    simp only [Action.runIn_bind, Action.runIn_makeDirectories, Action.runIn_write, hmade,
      Except.mapError, hwritten]
    rfl

/-- A call that succeeds among others would succeed by itself. -/
theorem fillable_of_later {w : World} (hopened : s.Opened w.files)
    (hpath : s.pathOf c.name c.version = .ok path) (hfile : w.files.isFile path = false)
    (hretains : Retains w.files f) {f' : Files}
    (hmade : f.makeDirectories (Path.join s.root c.name) = (.ok (), f'))
    (hretains' : Retains f' g) {k : Files} (hwritten : g.write path c.data = .ok k) :
    s.Fillable w c := by
  obtain ⟨root, hroot, hdirectory⟩ := hopened.exists_root
  obtain ⟨hname, hinner, rfl⟩ := of_pathOf hpath
  obtain ⟨made, hmade', hothers⟩ := hretains.makeDirectories_join hname hroot hdirectory hmade
  have hwidens := Files.widens_makeDirectories f (Path.join s.root c.name)
  rw [hmade] at hwidens
  have hg : Retains w.files g := hretains.trans (hwidens.within.retains.trans hretains')
  obtain ⟨place, hplace, hentry, -⟩ := Files.write_eq_ok_iff.mp hwritten
  obtain ⟨rfl, hmiddle, hstep⟩ := locate_archive (hg.houses.locate hroot) hpath hplace
  -- When the directory has been made, the archive has the same place, and no directory is there.
  have hmadeWidens := Files.widens_makeDirectories w.files (Path.join s.root c.name)
  rw [hmade'] at hmadeWidens
  have hmadeRoot := hmadeWidens.within.locate hroot
  obtain ⟨middle, hlocate, hmadeMiddle⟩ := Files.find_eq_ok_iff.mp (Files.isDirectory_iff.mp
    (Files.isDirectory_of_makeDirectories (Files.isEmpty_join (Files.isEmpty_of_locate hroot) hname)
      hmade'))
  rw [Files.locate_join (Files.isEmpty_of_locate hroot) hname, hmadeRoot] at hlocate
  obtain ⟨_, rfl⟩ := Files.step_name hname hlocate
  have hmadePlace : made.locate (Path.join (Path.join s.root c.name)
      (c.version ++ "." ++ extension)) =
        .ok (root ++ [c.name] ++ [c.version ++ "." ++ extension]) := by
    have hfirst : made.step root c.name.toList = .ok (root ++ [c.name]) := hlocate
    rw [Files.locate_join_join hmadeRoot hname hinner, hfirst]
    exact (Files.step_congr (hmadeMiddle.trans hmiddle.symm) _).trans hstep
  have hfree : made.entry? (root ++ [c.name] ++ [c.version ++ "." ++ extension]) ≠
      some .directory := by
    rw [hothers _ (by simp)]
    exact fun hold ↦ hentry (hg.houses.directories _ hold)
  exact fillable_iff.mpr ⟨_, made, _, hpath, hfile, hmade',
    Files.write_eq_ok_iff.mpr ⟨_, hmadePlace, hfree, rfl⟩⟩

/-! ## Runs -/

section Runs

variable {ι : Type} {calls : ι → Filling} {w : World} {p : Progress ι}

/-- What holds between two steps of calls that were made in a world. -/
structure Reached (s : Store) (calls : ι → Filling) (w : World) (p : Progress ι) : Prop where
  start : s.Opened w.files
  opened : s.Opened p.world.files
  retains : Retains w.files p.world.files
  absent : ∀ i path, p.stage i = .ok (.absent path) ∨ p.stage i = .ok (.written path) →
    s.pathOf (calls i).name (calls i).version = .ok path ∧ w.files.isFile path = false
  written : ∀ i path, p.stage i = .ok (.written path) → ∃ f f', Retains w.files f ∧
    f.makeDirectories (Path.join s.root (calls i).name) = (.ok (), f') ∧
      Retains f' p.world.files
  since : ∀ name version data, s.kept? w.files name version = some data →
    s.kept? p.world.files name version = some data
  source : ∀ name version data, s.kept? p.world.files name version = some data →
    s.kept? w.files name version = some data ∨
      ∃ i, calls i = ⟨name, version, data⟩ ∧ s.Fillable w (calls i)

theorem reached_start (h : s.Opened w.files) : Reached s calls w ⟨w, fun _ ↦ .ok .called⟩ where
  start := h
  opened := h
  retains := .refl _
  absent _ _ h := by rcases h with h | h <;> cases h
  written _ _ h := by cases h
  since _ _ _ h := h
  source _ _ _ h := .inl h

/-- The archive of a version is what a call was to keep that could succeed by itself. -/
structure Replaces (s : Store) (w : World) (c : Filling) (f : Files) (name version : String) :
    Prop where
  fillable : s.Fillable w c
  same_name : c.name = name
  same_version : c.version = version
  kept : s.kept? f name version = some c.data

namespace Reached

variable [DecidableEq ι]

/-- A step changes the files and how far one of the calls has come. -/
theorem next (h : Reached s calls w p) {i : ι} {result : Except Fault Stage} {after : World}
    (hopened : s.Opened after.files) (hretains : Retains p.world.files after.files)
    (habsent : ∀ path, result = .ok (.absent path) ∨ result = .ok (.written path) →
      s.pathOf (calls i).name (calls i).version = .ok path ∧ w.files.isFile path = false)
    (hwritten : ∀ path, result = .ok (.written path) → ∃ f f', Retains w.files f ∧
      f.makeDirectories (Path.join s.root (calls i).name) = (.ok (), f') ∧
        Retains f' after.files)
    (hkept : ∀ name version,
      s.kept? after.files name version = s.kept? p.world.files name version ∨
        Replaces s w (calls i) after.files name version) :
    Reached s calls w ⟨after, fun j ↦ if j = i then result else p.stage j⟩ ∧
      ∀ name version, s.kept? after.files name version = s.kept? p.world.files name version ∨
        Replaces s w (calls i) after.files name version := by
  refine ⟨⟨h.start, hopened, h.retains.trans hretains, fun j path hj ↦ ?absent,
    fun j path hj ↦ ?written, fun name version data hdata ↦ ?since,
    fun name version data hdata ↦ ?source⟩, hkept⟩
  case absent =>
    by_cases hi : j = i
    · subst hi
      simp only [if_true] at hj
      exact habsent path hj
    · simp only [if_neg hi] at hj
      exact h.absent j path hj
  case written =>
    by_cases hi : j = i
    · subst hi
      simp only [if_true] at hj
      exact hwritten path hj
    · simp only [if_neg hi] at hj
      obtain ⟨f, f', hf, hmade, hf'⟩ := h.written j path hj
      exact ⟨f, f', hf, hmade, hf'.trans hretains⟩
  case since =>
    rcases hkept name version with hsame | ⟨hfillable, rfl, rfl, _⟩
    · exact hsame.trans (h.since name version data hdata)
    · cases hfillable.1.symm.trans hdata
  case source =>
    rcases hkept name version with hsame | ⟨hfillable, rfl, rfl, hnew⟩
    · exact h.source name version data (hsame.symm.trans hdata)
    · have heq : (calls i).data = data := Option.some.inj (hnew.symm.trans hdata)
      exact .inr ⟨i, heq ▸ rfl, hfillable⟩

/-- What is kept after a step was kept before, or the call that took it has just moved it there. -/
theorem advance (h : Reached s calls w p) (i : ι) :
    Reached s calls w (s.advance calls p i) ∧ ∀ name version,
      s.kept? (s.advance calls p i).world.files name version =
          s.kept? p.world.files name version ∨
        Replaces s w (calls i) (s.advance calls p i).world.files name version := by
  unfold Store.advance
  split
  · exact ⟨h, fun _ _ ↦ .inl rfl⟩
  · next stage hstage =>
    have htakes := takes_step s (calls i) p.world stage
    generalize (s.step (calls i) stage).runIn p.world = outcome at htakes
    obtain ⟨result, after⟩ := outcome
    cases htakes with
    | refuse _ | find _ _ | fail _ | rest =>
      exact h.next h.opened (.refl _) (by simp) (by simp) fun _ _ ↦ .inl rfl
    | miss hpath hfile =>
      refine h.next h.opened (.refl _) (fun path hresult ↦ ?_) (by simp) fun _ _ ↦ .inl rfl
      obtain rfl : _ = path := by simpa using hresult
      rw [isFile_eq_false_iff hpath] at hfile ⊢
      refine ⟨hpath, Option.eq_none_iff_forall_ne_some.mpr fun data hdata ↦ ?_⟩
      cases hfile.symm.trans (h.since _ _ data hdata)
    | block hmade =>
      have hwidens := Files.widens_makeDirectories p.world.files (Path.join s.root (calls i).name)
      rw [hmade] at hwidens
      exact h.next (h.opened.widens hwidens) hwidens.within.retains (by simp) (by simp)
        fun name version ↦ .inl (kept?_of_widens h.opened hwidens name version)
    | prepare hmade =>
      have hwidens := Files.widens_makeDirectories p.world.files (Path.join s.root (calls i).name)
      rw [hmade] at hwidens
      refine h.next (h.opened.widens hwidens) hwidens.within.retains (fun path hresult ↦ ?_)
        (fun path _ ↦ ⟨_, _, h.retains, hmade, .refl _⟩)
        fun name version ↦ .inl (kept?_of_widens h.opened hwidens name version)
      obtain rfl : _ = path := by simpa using hresult
      exact h.absent i _ (.inl hstage)
    | move hwritten =>
      obtain ⟨hpath, hfile⟩ := h.absent i _ (.inr hstage)
      obtain ⟨f, f', hf, hmade, hf'⟩ := h.written i _ hstage
      obtain ⟨hopened, hwrite⟩ := kept?_of_write h.opened hpath hwritten
      refine h.next hopened (Files.retains_of_write hwritten) (by simp) (by simp)
        fun name version ↦ ?_
      by_cases hsame : name = (calls i).name ∧ version = (calls i).version
      · obtain ⟨rfl, rfl⟩ := hsame
        exact .inr ⟨fillable_of_later h.start hpath hfile hf hmade hf' hwritten, rfl, rfl,
          (hwrite _ _).trans (if_pos ⟨rfl, rfl⟩)⟩
      · exact .inl ((hwrite name version).trans (if_neg hsame))

/-- A version of which an archive is kept is kept for good, if perhaps not with the same bytes. -/
theorem isSome_foldl (h : Reached s calls w p) (more : List ι) {name version : String}
    (hkept : (s.kept? p.world.files name version).isSome = true) :
    (s.kept? (more.foldl (s.advance calls) p).world.files name version).isSome = true := by
  induction more generalizing p with
  | nil => exact hkept
  | cons i rest ih =>
    obtain ⟨hreached, hstep⟩ := h.advance i
    refine ih hreached ?_
    rcases hstep name version with hsame | hreplaces
    · exact hsame ▸ hkept
    · exact hreplaces.kept ▸ rfl

/-- Where calls for one version carry the same bytes, archives stay as they are. -/
theorem kept?_foldl (h : Reached s calls w p)
    (hsame : ∀ i j, (calls i).name = (calls j).name → (calls i).version = (calls j).version →
      s.Fillable w (calls i) → s.Fillable w (calls j) → (calls i).data = (calls j).data)
    (more : List ι) {name version : String} {data : ByteArray}
    (hkept : s.kept? p.world.files name version = some data) :
    s.kept? (more.foldl (s.advance calls) p).world.files name version = some data := by
  induction more generalizing p with
  | nil => exact hkept
  | cons i rest ih =>
    obtain ⟨hreached, hstep⟩ := h.advance i
    refine ih hreached ?_
    rcases hstep name version with hunchanged | ⟨hfillable, hname, hversion, hnew⟩
    · exact hunchanged.trans hkept
    · rcases h.source name version data hkept with hold | ⟨j, hj, hfillable'⟩
      · rw [← hname, ← hversion] at hold
        cases hfillable.1.symm.trans hold
      · have hdata := hsame i j (hname.trans (congrArg Filling.name hj).symm)
          (hversion.trans (congrArg Filling.version hj).symm) hfillable hfillable'
        rw [hnew, hdata, hj]

end Reached

theorem reached_run [DecidableEq ι] (h : s.Opened w.files) (calls : ι → Filling)
    (order : List ι) : Reached s calls w (s.run calls w order) := by
  have hfoldl (p : Progress ι) (hp : Reached s calls w p) :
      Reached s calls w (order.foldl (s.advance calls) p) := by
    induction order generalizing p with
    | nil => exact hp
    | cons i rest ih => exact ih _ (hp.advance i).1
  exact hfoldl _ (reached_start h)

/-! ## Calls that have both found nothing -/

/-- How far calls are of which at most two have taken a step. -/
def twoStages [DecidableEq ι] (i j : ι) (a b : Except Fault Stage) : ι → Except Fault Stage :=
  fun k ↦ if k = i then a else if k = j then b else .ok .called

section TwoStages

variable [DecidableEq ι] {i j : ι} {a b : Stage} {result other : Except Fault Stage}
  {after : World}

theorem twoStages_called (i j : ι) :
    twoStages i j (.ok .called) (.ok .called) = fun _ ↦ .ok .called := by
  funext k
  unfold twoStages
  split_ifs <;> rfl

theorem advance_left (hstep : (s.step (calls i) a).runIn w = (result, after)) :
    s.advance calls ⟨w, twoStages i j (.ok a) other⟩ i = ⟨after, twoStages i j result other⟩ := by
  have hstage : twoStages i j (.ok a) other i = .ok a := if_pos rfl
  simp only [advance, hstage, hstep, Progress.mk.injEq, true_and]
  funext k
  unfold twoStages
  split_ifs <;> rfl

theorem advance_right (hne : i ≠ j) (hstep : (s.step (calls j) b).runIn w = (result, after)) :
    s.advance calls ⟨w, twoStages i j other (.ok b)⟩ j = ⟨after, twoStages i j other result⟩ := by
  have hstage : twoStages i j other (.ok b) j = .ok b := (if_neg hne.symm).trans (if_pos rfl)
  simp only [advance, hstage, hstep, Progress.mk.injEq, true_and]
  funext k
  unfold twoStages
  by_cases hi : k = i
  · rw [if_neg (hi ▸ hne), if_pos hi, if_pos hi]
  · by_cases hj : k = j
    · rw [if_pos hj, if_neg hi, if_pos hj]
    · rw [if_neg hj, if_neg hi, if_neg hj, if_neg hi, if_neg hj]

end TwoStages

theorem runIn_absent (hmade : w.files.makeDirectories (Path.join s.root c.name) = (.ok (), f)) :
    (s.step c (.absent path)).runIn w = (.ok (.written path), { w with files := f }) := by
  simp only [step, Action.runIn_bind, Action.runIn_makeDirectories, hmade]
  rfl

theorem runIn_written (hwritten : w.files.write path c.data = .ok f) :
    (s.step c (.written path)).runIn w = (.ok (.done path), { w with files := f }) := by
  simp only [step, Action.runIn_bind, Action.runIn_write, hwritten]
  rfl

/-- Of two calls that have both found nothing, each puts its archive into place. -/
theorem kept?_of_two [DecidableEq ι] {i j : ι} (h : s.Opened w.files) (hne : i ≠ j)
    (hname : (calls i).name = (calls j).name) (hversion : (calls i).version = (calls j).version)
    (hi : s.Fillable w (calls i)) :
    s.kept? (s.run calls w [i, j, i, i]).world.files (calls i).name (calls i).version =
        some (calls i).data ∧
      s.kept? (s.run calls w ([i, j, i, i] ++ [j, j])).world.files (calls i).name
        (calls i).version = some (calls j).data := by
  obtain ⟨path, f, g, hpath, hfile, hmade, hwritten⟩ := fillable_iff.mp hi
  have hpath' : s.pathOf (calls j).name (calls j).version = .ok path := by
    rw [← hname, ← hversion, hpath]
  obtain ⟨root, hroot, _⟩ := h.exists_root
  obtain ⟨hplain, _⟩ := of_pathOf hpath
  have hmade' : g.makeDirectories (Path.join s.root (calls j).name) = (.ok (), g) :=
    hname ▸ Files.makeDirectories_of_isDirectory
      ((Files.houses_of_write hwritten).isDirectory (Files.isDirectory_of_makeDirectories
        (Files.isEmpty_join (Files.isEmpty_of_locate hroot) hplain) hmade))
  obtain ⟨k, hwritten'⟩ := Files.exists_write_of_write hwritten (calls j).data
  have hcalled (c : Filling) (hpath : s.pathOf c.name c.version = .ok path) :
      (s.step c .called).runIn w = (.ok (.absent path), w) := by
    rw [runIn_called hpath, hfile]
    rfl
  have hfirst : s.run calls w [i, j, i, i] = ⟨{ w with files := g },
      twoStages i j (.ok (.done path)) (.ok (.absent path))⟩ := by
    rw [run, ← twoStages_called i j]
    simp only [List.foldl]
    rw [advance_left (hcalled (calls i) hpath), advance_right hne (hcalled (calls j) hpath'),
      advance_left (runIn_absent hmade), advance_left (runIn_written hwritten)]
  have hsecond : s.run calls w ([i, j, i, i] ++ [j, j]) = ⟨{ w with files := k },
      twoStages i j (.ok (.done path)) (.ok (.done path))⟩ := by
    have hmore : s.run calls w ([i, j, i, i] ++ [j, j]) =
        [j, j].foldl (s.advance calls) (s.run calls w [i, j, i, i]) := List.foldl_append
    rw [hmore, hfirst]
    simp only [List.foldl]
    rw [advance_right hne (runIn_absent hmade'), advance_right hne (runIn_written hwritten')]
  rw [hfirst, hsecond]
  rw [kept?_of_pathOf hpath, kept?_of_pathOf hpath, Files.read_of_write hwritten,
    Files.read_of_write hwritten']
  exact ⟨rfl, rfl⟩

end Runs

/-! ## The main result -/

/-- In whatever order the calls take their steps, an archive that is kept stays as it is. -/
def AppendOnly {ι : Type} [DecidableEq ι] (s : Store) (calls : ι → Filling) (w : World) : Prop :=
  ∀ order more name version data,
    s.kept? (s.run calls w order).world.files name version = some data →
      s.kept? (s.run calls w (order ++ more)).world.files name version = some data

/-- Let calls that keep archives take their steps in any order. What is kept of a version was kept
at first or is what one of the calls was to keep, and something is kept from then on. It stays the
same in all orders just if those calls for one version that find nothing at first and would succeed
by themselves carry the same bytes. -/
theorem appendOnly_iff {ι : Type} [DecidableEq ι] {w : World} (calls : ι → Filling)
    (h : s.Opened w.files) :
    (∀ order name version data,
      s.kept? (s.run calls w order).world.files name version = some data →
        (s.kept? w.files name version = some data ∨ ∃ i, calls i = ⟨name, version, data⟩) ∧
        ∀ more, (s.kept? (s.run calls w (order ++ more)).world.files name version).isSome = true) ∧
    (s.AppendOnly calls w ↔
      ∀ i j, (calls i).name = (calls j).name → (calls i).version = (calls j).version →
        s.Fillable w (calls i) → s.Fillable w (calls j) → (calls i).data = (calls j).data) := by
  have hrun (order more : List ι) : s.run calls w (order ++ more) =
      more.foldl (s.advance calls) (s.run calls w order) := List.foldl_append
  refine ⟨fun order name version data hkept ↦ ⟨?_, fun more ↦ ?_⟩,
    fun hstay i j hname hversion hi _ ↦ ?_, fun hsame order more name version data hkept ↦ ?_⟩
  · exact ((reached_run h calls order).source name version data hkept).imp_right
      fun ⟨i, hi, _⟩ ↦ ⟨i, hi⟩
  · rw [hrun]
    exact (reached_run h calls order).isSome_foldl more (hkept ▸ rfl)
  · by_cases hne : i = j
    · rw [hne]
    · obtain ⟨hfirst, hsecond⟩ := kept?_of_two h hne hname hversion hi
      exact Option.some.inj ((hstay _ _ _ _ _ hfirst).symm.trans hsecond)
  · rw [hrun]
    exact (reached_run h calls order).kept?_foldl hsame more hkept

def cacheStore : Store :=
  ⟨"/cache"⟩

/-- A world with an empty store. -/
def freshWorld : World :=
  ⟨{ entries := [(["cache"], .directory)] }, {}, ⟨0⟩⟩

theorem opened_freshWorld : cacheStore.Opened freshWorld.files := by
  refine ⟨fun place name e he ↦ ?_, by decide +kernel⟩
  cases place with
  | nil => rfl
  | cons first rest =>
    have hother : (rest ++ [name]).isEmpty = false := by simp
    simp [freshWorld, Files.entry?, List.lookup_cons, hother] at he

theorem appendOnly_eight : cacheStore.Opened freshWorld.files ∧
    cacheStore.AppendOnly (fun _ : Fin 8 ↦ ⟨"stats", "1.0.0", "same bytes".toUTF8⟩) freshWorld :=
  ⟨opened_freshWorld, (appendOnly_iff _ opened_freshWorld).2.mpr fun _ _ _ _ _ _ ↦ rfl⟩

/-- Two calls for one version. -/
def rivals (second : Bool) : Filling :=
  ⟨"stats", "1.0.0", (if second then "second" else "first").toUTF8⟩

/-- An archive is replaced when two calls look for it before one of them writes it. -/
theorem not_appendOnly_rivals : cacheStore.Opened freshWorld.files ∧
    ¬cacheStore.AppendOnly rivals freshWorld := by
  refine ⟨opened_freshWorld, fun h ↦ ?_⟩
  have hfirst : cacheStore.kept? (cacheStore.run rivals freshWorld
      [false, true, false, false]).world.files "stats" "1.0.0" = some "first".toUTF8 := by
    decide +kernel
  have hsecond : cacheStore.kept? (cacheStore.run rivals freshWorld
      ([false, true, false, false] ++ [true, true])).world.files "stats" "1.0.0" =
        some "second".toUTF8 := by
    decide +kernel
  exact absurd ((h _ [true, true] _ _ _ hfirst).symm.trans hsecond) (by decide +kernel)

end SheetPackages.Archive.Store
