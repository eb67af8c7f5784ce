import SheetPackages.Archive.Store
import SheetPackages.Proofs.Results
import SheetPackages.Proofs.World.Observing

/-!
# Archives that stay

Looking for a kept archive never fails and changes nothing. Keeping one leaves all other files as
they are, and afterwards the archive that had been kept before is still there, or else the new one.
The directory of the store must be there, and whatever is anywhere must be in a directory. What
becomes of the archives when the store is cleared is not described.
-/

namespace SheetPackages

/-! ## Actions on files -/

namespace Action

theorem runIn_makeDirectories (message path : String) (w : World) :
    (makeDirectories message path).runIn w =
      ((w.files.makeDirectories path).1.mapError fun _ ↦ Fault.ofSystem message,
        { w with files := (w.files.makeDirectories path).2 }) := by
  change ((setFiles (w.files.makeDirectories path).2 >>= fun _ ↦
    orFault message (w.files.makeDirectories path).1 : Action Unit).runIn w) = _
  cases (w.files.makeDirectories path).1 <;> rfl

theorem runIn_write (message path : String) (data : ByteArray) (w : World) :
    (write message path data).runIn w = match w.files.write path data with
      | .ok f => (.ok (), { w with files := f })
      | .error _ => (.error (.ofSystem message), w) := by
  change ((orFault message (w.files.write path data) >>= setFiles : Action Unit).runIn w) = _
  cases w.files.write path data <;> rfl

theorem runIn_move (message source target : String) (w : World) :
    (move message source target).runIn w = match w.files.move source target with
      | .ok f => (.ok (), { w with files := f })
      | .error _ => (.error (.ofSystem message), w) := by
  change ((orFault message (w.files.move source target) >>= setFiles : Action Unit).runIn w) = _
  cases w.files.move source target <;> rfl

end Action

namespace Archive.Store

open Files (IsName)

variable {s : Store} {f g : Files} {name version path : String} {data : ByteArray}

/-! ## Looking -/

/-- The archive that is kept of a version, if there is one. -/
def kept? (s : Store) (f : Files) (name version : String) : Option ByteArray :=
  (s.pathOf name version).toOption.bind fun path ↦ (f.read path).toOption

theorem kept?_eq_some_iff : s.kept? f name version = some data ↔
    ∃ path, s.pathOf name version = .ok path ∧ f.read path = .ok data := by
  simp only [kept?, Option.bind_eq_some_iff, toOption_eq_some_iff]

theorem kept?_within (h : f.Within g) (hkept : s.kept? f name version = some data) :
    s.kept? g name version = some data := by
  obtain ⟨path, hpath, hread⟩ := kept?_eq_some_iff.mp hkept
  exact kept?_eq_some_iff.mpr ⟨path, hpath, h.read hread⟩

theorem kept?_of_pathOf (h : s.pathOf name version = .ok path) :
    s.kept? f name version = (f.read path).toOption := by
  rw [kept?, h]
  rfl

theorem runIn_get? (s : Store) (name version : String) (w : World) :
    (s.get? name version).runIn w = (.ok (s.kept? w.files name version), w) := by
  change ((if s.holds w.files name version = true then _ else pure none :
    Action (Option ByteArray)).runIn w) = _
  rw [holds]
  cases hpath : s.pathOf name version with
  | error fault =>
    rw [kept?, hpath]
    rfl
  | ok path =>
    rw [kept?_of_pathOf hpath]
    simp only
    cases hread : w.files.read path with
    | error refusal =>
      have habsent : w.files.isFile path = false := by
        rw [Bool.eq_false_iff, Ne, Files.isFile_iff, hread]
        exact nofun
      rw [if_neg (Bool.eq_false_iff.mp habsent)]
      rfl
    | ok data =>
      rw [if_pos (Files.isFile_iff.mpr ⟨data, hread⟩)]
      change ((Action.orFault _ (w.files.read path) >>= fun data ↦ pure (some data) :
        Action (Option ByteArray)).runIn w) = _
      rw [hread]
      rfl

/-! ## Paths -/

theorem of_isPlainName {text : String} (h : isPlainName text = true) : IsName text := by
  simp only [isPlainName, Bool.and_eq_true, decide_eq_true_eq, Bool.not_eq_true',
    List.any_eq_false] at h
  obtain ⟨⟨⟨hempty, hpoint⟩, hpoints⟩, hchars⟩ := h
  have hne (u : String) (hu : text ≠ u) : text.toList ≠ u.toList :=
    fun heq ↦ hu (String.toList_inj.mp heq)
  constructor
  case separator =>
    intro hmem
    exact hchars '/' hmem (by decide)
  case trivial =>
    rw [Path.isTrivial, Bool.or_eq_false_iff, decide_eq_false_iff_not, decide_eq_false_iff_not]
    exact ⟨hne "" hempty, hne "." hpoint⟩
  case parent => exact hne ".." hpoints

/-- A version with the extension of archives behind it. -/
theorem isName_archive (h : isPlainName version = true) : IsName (version ++ "." ++ extension) := by
  have hlist : (version ++ "." ++ extension).toList = version.toList ++ ".gspkg".toList := by
    rw [String.toList_append, String.toList_append, List.append_assoc]
    rfl
  have hlength : 6 ≤ (version ++ "." ++ extension).toList.length := by
    rw [hlist, List.length_append]
    exact Nat.le_add_left 6 _
  constructor
  case separator =>
    rw [hlist, List.mem_append, not_or]
    exact ⟨(of_isPlainName h).separator, by decide⟩
  case trivial =>
    rw [Path.isTrivial, Bool.or_eq_false_iff, decide_eq_false_iff_not, decide_eq_false_iff_not]
    constructor <;> intro heq <;> rw [heq] at hlength <;> exact absurd hlength (by decide)
  case parent =>
    intro heq
    rw [heq] at hlength
    exact absurd hlength (by decide)

theorem of_checkName {text : String} (h : checkName text = .ok ()) : isPlainName text = true := by
  unfold checkName at h
  split at h
  · assumption
  · cases h

theorem of_pathOf (h : s.pathOf name version = .ok path) :
    IsName name ∧ IsName (version ++ "." ++ extension) ∧
      path = Path.join (Path.join s.root name) (version ++ "." ++ extension) := by
  obtain ⟨_, hname, h⟩ := exists_of_bind_eq_ok h
  obtain ⟨_, hversion, h⟩ := exists_of_bind_eq_ok h
  exact ⟨of_isPlainName (of_checkName hname), isName_archive (of_checkName hversion),
    (Except.ok.inj h).symm⟩

/-! ## Keeping -/

/-- The directory of the store is there, and whatever is anywhere is in a directory. -/
structure Opened (s : Store) (f : Files) : Prop where
  rooted : f.Rooted
  directory : f.isDirectory s.root = true

theorem Opened.within (h : s.Opened f) (hwithin : f.Within g) (hrooted : g.Rooted) : s.Opened g :=
  ⟨hrooted, hwithin.isDirectory h.directory⟩

/-- A store that has been opened where everything is in a directory. -/
theorem opened_of_openAt {root : String} {w after : World} (hroot : root.isEmpty = false)
    (hrooted : w.files.Rooted) (h : (openAt root).runIn w = (.ok s, after)) :
    s.Opened after.files := by
  have hwidens := Files.widens_makeDirectories w.files root
  rw [openAt, Action.runIn_bind, Action.runIn_makeDirectories] at h
  cases hmade : w.files.makeDirectories root with
  | mk made f =>
    rw [hmade] at h hwidens
    cases made with
    | error refusal => cases h
    | ok _ =>
      cases h
      exact ⟨hwidens.rooted hrooted, Files.isDirectory_of_makeDirectories hroot hmade⟩

/-- The file of an archive is not written where there is one. -/
theorem runIn_put (h : s.pathOf name version = .ok path) (data : ByteArray) (w : World) :
    (s.put name version data).runIn w =
      if w.files.isFile path = true then (.ok path, w)
      else
        let directory := Path.join s.root name
        (Action.makeDirectories s!"Failed to create {directory}" directory >>= fun _ ↦
          Action.write s!"Failed to move artifact to {path}" path data >>= fun _ ↦
            pure path : Action String).runIn w := by
  rw [put, h]
  change ((if !w.files.isFile path then _ else _ : Action String).runIn w) = _
  cases w.files.isFile path <;> rfl

/-- Where an archive is written for which there is no file yet, everything that was there stays. -/
theorem write_spec {w : World} {after : World} {result : Except Fault String}
    (hopened : s.Opened w.files) (hpath : s.pathOf name version = .ok path)
    (hnew : w.files.isFile path = false)
    (hrun : (s.put name version data).runIn w = (result, after)) :
    w.files.Within after.files ∧ after.files.Rooted ∧
      ∀ made, result = .ok made → after.files.read path = .ok data := by
  rw [runIn_put hpath, if_neg (Bool.eq_false_iff.mp hnew)] at hrun
  simp only [Action.runIn_bind, Action.runIn_makeDirectories, Action.runIn_write] at hrun
  have hwidens := Files.widens_makeDirectories w.files (Path.join s.root name)
  cases hmade : w.files.makeDirectories (Path.join s.root name) with
  | mk made f =>
    rw [hmade] at hrun hwidens
    have hrooted : f.Rooted := hwidens.rooted hopened.rooted
    cases made with
    | error refusal =>
      cases hrun
      exact ⟨hwidens.within, hrooted, nofun⟩
    | ok _ =>
      obtain ⟨hname, hversion, rfl⟩ := of_pathOf hpath
      have habsent : f.isFile (Path.join (Path.join s.root name) (version ++ "." ++ extension)) =
          false := by
        rw [Bool.eq_false_iff] at hnew ⊢
        exact fun hfile ↦ hnew (hwidens.isFile_join hopened.rooted hopened.directory hname hversion
          hfile)
      cases hwritten : f.write (Path.join (Path.join s.root name) (version ++ "." ++ extension))
          data with
      | error refusal =>
        simp only [Except.mapError, hwritten] at hrun
        cases hrun
        exact ⟨hwidens.within, hrooted, nofun⟩
      | ok g =>
        simp only [Except.mapError, hwritten] at hrun
        cases hrun
        obtain ⟨hwithin, hread, hkeeps⟩ := Files.of_write habsent hwritten
        exact ⟨hwidens.within.trans hwithin, hkeeps hrooted, fun _ _ ↦ hread⟩

/-- Nothing that was there is changed when an archive is put into the store, and one that has been
put there is kept unless there was one before. -/
theorem put_spec {w after : World} {result : Except Fault String} (hopened : s.Opened w.files)
    (hrun : (s.put name version data).runIn w = (result, after)) :
    w.files.Within after.files ∧ s.Opened after.files ∧
      ∀ path, result = .ok path →
        s.kept? after.files name version = some ((s.kept? w.files name version).getD data) := by
  cases hpath : s.pathOf name version with
  | error fault =>
    rw [put, hpath] at hrun
    cases hrun
    exact ⟨.refl _, hopened, nofun⟩
  | ok path =>
    rw [kept?_of_pathOf hpath, kept?_of_pathOf hpath]
    cases hfile : w.files.isFile path with
    | true =>
      rw [runIn_put hpath, if_pos hfile] at hrun
      cases hrun
      obtain ⟨old, hread⟩ := Files.isFile_iff.mp hfile
      rw [hread]
      exact ⟨.refl _, hopened, fun _ _ ↦ rfl⟩
    | false =>
      obtain ⟨hwithin, hrooted, hread⟩ := write_spec hopened hpath hfile hrun
      refine ⟨hwithin, hopened.within hwithin hrooted, fun made hmade ↦ ?_⟩
      have hnothing : (w.files.read path).toOption = none := by
        rw [Option.eq_none_iff_forall_ne_some]
        intro old hold
        rw [Files.isFile_iff.mpr ⟨old, toOption_eq_some_iff.mp hold⟩] at hfile
        cases hfile
      rw [hread made hmade, hnothing]
      rfl

end Archive.Store

end SheetPackages
