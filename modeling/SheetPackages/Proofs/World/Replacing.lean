import SheetPackages.Proofs.Results
import SheetPackages.Proofs.World.Growing

/-!
# Files that are replaced

Writing a file changes one place and no directory, so that all paths lead where they led before,
also to the file itself when it is written once more. Directories that are there are not made again.
Nothing is said about files whose place is not a file, which cannot be written.
-/

namespace SheetPackages.Files

variable {f g : Files} {path : String} {data : ByteArray}

theorem ne_nil_of_not_directory {place : Place} (h : f.entry? place ≠ some .directory) :
    place ≠ [] := by
  rintro rfl
  exact h rfl

theorem write_eq_ok_iff : f.write path data = .ok g ↔
    ∃ place, f.locate path = .ok place ∧ f.entry? place ≠ some .directory ∧
      g = f.put place (.file data) := by
  unfold write
  cases f.locate path with
  | error refusal => simp [bind, Except.bind]
  | ok place =>
    cases hentry : f.entry? place with
    | none => simp [bind, Except.bind, pure, Except.pure, hentry, eq_comm]
    | some e => cases e <;> simp [bind, Except.bind, pure, Except.pure, hentry, eq_comm]

theorem houses_put {place : Place} (h : f.entry? place ≠ some .directory) (data : ByteArray) :
    Houses f (f.put place (.file data)) where
  here := rfl
  directories other hother := by
    have hne : other ≠ place := by
      rintro rfl
      exact h hother
    rw [entry?_put (ne_nil_of_not_directory h), if_neg hne, hother]

theorem houses_of_write (h : f.write path data = .ok g) : Houses f g := by
  obtain ⟨place, _, hentry, rfl⟩ := write_eq_ok_iff.mp h
  exact houses_put hentry data

/-- A file that has been written is what is read. -/
theorem read_of_write (h : f.write path data = .ok g) : g.read path = .ok data := by
  obtain ⟨place, hplace, hentry, rfl⟩ := write_eq_ok_iff.mp h
  refine read_eq_ok_iff.mpr
    (find_eq_ok_iff.mpr ⟨place, (houses_put hentry data).locate hplace, ?_⟩)
  rw [entry?_put (ne_nil_of_not_directory hentry), if_pos rfl]

/-- A file that has been written can be written again. -/
theorem exists_write_of_write (h : f.write path data = .ok g) (new : ByteArray) :
    ∃ k, g.write path new = .ok k := by
  have hhouses := houses_of_write h
  obtain ⟨place, hplace, hentry, rfl⟩ := write_eq_ok_iff.mp h
  refine ⟨_, write_eq_ok_iff.mpr ⟨place, hhouses.locate hplace, ?_, rfl⟩⟩
  rw [entry?_put (ne_nil_of_not_directory hentry), if_pos rfl]
  exact nofun

/-! ## Directories that are there -/

theorem entry?_of_foldlM_step {place last : Place} {pieces : List (List Char)}
    (h : pieces.foldlM f.step place = .ok last) (hlast : f.entry? last = some .directory) :
    f.entry? place = some .directory := by
  cases pieces with
  | nil =>
    cases h
    exact hlast
  | cons piece rest =>
    rw [List.foldlM_cons] at h
    cases hstep : f.step place piece with
    | error refusal =>
      rw [hstep] at h
      cases h
    | ok next => exact (step_spec hstep).1

/-- Entering what leads to a directory makes nothing. -/
theorem enterAll_append {place last : Place} {pieces : List (List Char)}
    (h : pieces.foldlM f.step place = .ok last) (hlast : f.entry? last = some .directory)
    (more : List (List Char)) : enterAll place f (pieces ++ more) = enterAll last f more := by
  induction pieces generalizing place with
  | nil =>
    cases h
    rfl
  | cons piece rest ih =>
    rw [List.foldlM_cons] at h
    cases hstep : f.step place piece with
    | error refusal =>
      rw [hstep] at h
      cases h
    | ok next =>
      rw [hstep] at h
      have hnext : f.entry? next = some .directory := entry?_of_foldlM_step h hlast
      have henter : enter place f piece = .ok (next, f) := by
        simp only [enter, hstep, hnext]
        rfl
      rw [List.cons_append, enterAll, henter]
      exact ih h

theorem makeDirectories_of_isDirectory (h : f.isDirectory path = true) :
    f.makeDirectories path = (.ok (), f) := by
  obtain ⟨place, hplace, hentry⟩ := find_eq_ok_iff.mp (isDirectory_iff.mp h)
  unfold locate at hplace
  unfold makeDirectories
  split
  · rfl
  · next hempty =>
    rw [if_neg hempty] at hplace
    have henter := enterAll_append hplace hentry []
    rwa [List.append_nil] at henter

/-- A directory is made in one that is there by entering its name. -/
theorem makeDirectories_join {base name : String} {place : Place} (hname : IsName name)
    (hplace : f.locate base = .ok place) (hentry : f.entry? place = some .directory) :
    f.makeDirectories (Path.join base name) = enterAll place f [name.toList] := by
  have hbase := isEmpty_of_locate hplace
  rw [makeDirectories, if_neg (Bool.eq_false_iff.mp (isEmpty_join hbase hname)),
    isAbsolute_join hbase hname]
  rw [locate, if_neg (Bool.eq_false_iff.mp hbase)] at hplace
  rcases toList_join hbase hname with hjoin | ⟨before, hbefore, hjoin⟩
  · rw [hjoin, Text.pieces_append, Text.pieces_of_not_mem hname.separator]
    exact enterAll_append hplace hentry _
  · rw [hbefore, Text.pieces_append, List.foldlM_append] at hplace
    rw [hjoin, Text.pieces_append, Text.pieces_of_not_mem hname.separator]
    -- Behind the separator at the end of the path there is nothing, so the place is not left.
    obtain ⟨last, hlast, hempty⟩ := exists_of_bind_eq_ok hplace
    have hstep : f.step last [] = .ok place := (bind_pure _).symm.trans hempty
    obtain ⟨hdirectory, _⟩ := step_spec hstep
    have hstay : f.step last [] = .ok last := by
      simp only [step, hdirectory]
      rfl
    cases hstay.symm.trans hstep
    exact enterAll_append hlast hdirectory _

theorem find_congr (hlocate : f.locate path = g.locate path)
    (hentry : ∀ place, g.locate path = .ok place → f.entry? place = g.entry? place) :
    f.find path = g.find path := by
  rw [find, find, hlocate]
  cases hplace : g.locate path with
  | error refusal => rfl
  | ok place => simp only [bind, Except.bind, hentry place hplace]

/-- What is read in a directory below another depends on these directories and the file. -/
theorem read_join_congr {base name inner : String} {root : Place} (hname : IsName name)
    (hinner : IsName inner) (hf : f.locate base = .ok root) (hg : g.locate base = .ok root)
    (hroot : f.entry? root = g.entry? root)
    (hmiddle : f.entry? (root ++ [name]) = g.entry? (root ++ [name]))
    (hlast : f.entry? (root ++ [name] ++ [inner]) = g.entry? (root ++ [name] ++ [inner])) :
    f.read (Path.join (Path.join base name) inner) =
      g.read (Path.join (Path.join base name) inner) := by
  rw [read, read, find_congr]
  · rw [locate_join_join hf hname hinner, locate_join_join hg hname hinner, step_congr hroot]
    cases hstep : g.step root name.toList with
    | error refusal => rfl
    | ok middle =>
      obtain ⟨_, rfl⟩ := step_name hname hstep
      exact step_congr hmiddle _
  · intro place hplace
    rw [locate_join_join hg hname hinner] at hplace
    obtain ⟨middle, hstep, hinside⟩ := exists_of_bind_eq_ok hplace
    obtain ⟨_, rfl⟩ := step_name hname hstep
    obtain ⟨_, rfl⟩ := step_name hinner hinside
    exact hlast

/-! ## Files that stay files -/

/-- Directories of `f` are directories of `g`, and files of `f` are files of `g`. -/
structure Retains (f g : Files) : Prop where
  houses : Houses f g
  files : ∀ place data, f.entry? place = some (.file data) →
    ∃ new, g.entry? place = some (.file new)

namespace Retains

theorem refl (f : Files) : Retains f f :=
  ⟨.refl f, fun _ data h ↦ ⟨data, h⟩⟩

theorem trans {k : Files} (h : Retains f g) (h' : Retains g k) : Retains f k :=
  ⟨h.houses.trans h'.houses, fun place data hfile ↦
    have ⟨new, hnew⟩ := h.files place data hfile
    h'.files place new hnew⟩

end Retains

theorem Within.retains (h : Within f g) : Retains f g :=
  ⟨h.houses, fun place data hfile ↦ ⟨data, h.kept place _ hfile⟩⟩

theorem retains_of_write (h : f.write path data = .ok g) : Retains f g := by
  refine ⟨houses_of_write h, fun place old hold ↦ ?_⟩
  obtain ⟨target, _, hentry, rfl⟩ := write_eq_ok_iff.mp h
  rw [entry?_put (ne_nil_of_not_directory hentry)]
  split
  · exact ⟨data, rfl⟩
  · exact ⟨old, hold⟩

/-- A directory that could be made later can be made now, and leaves all other places alone. -/
theorem Retains.makeDirectories_join {base name : String} {place : Place} (h : Retains f g)
    (hname : IsName name) (hplace : f.locate base = .ok place)
    (hentry : f.entry? place = some .directory) {after : Files}
    (hmade : g.makeDirectories (Path.join base name) = (.ok (), after)) :
    ∃ k, f.makeDirectories (Path.join base name) = (.ok (), k) ∧
      ∀ other, other ≠ place ++ [name] → k.entry? other = f.entry? other := by
  have hentry' := h.houses.directories place hentry
  rw [Files.makeDirectories_join hname (h.houses.locate hplace) hentry'] at hmade
  rw [Files.makeDirectories_join hname hplace hentry]
  obtain ⟨next, between, henter, hnothing⟩ := exists_of_enterAll_cons hmade
  cases hnothing
  obtain ⟨hstep, hthere⟩ := enter_spec henter
  obtain ⟨_, rfl⟩ := step_name hname hstep
  rw [← step_congr (hentry.trans hentry'.symm)] at hstep
  cases hold : f.entry? (place ++ [name]) with
  | none =>
    refine ⟨f.put (place ++ [name]) .directory, ?_, fun other hother ↦ ?_⟩
    · simp only [enterAll, enter, hstep, hold]
      rfl
    · rw [entry?_put (ne_nil_of_entry?_eq_none hold), if_neg hother]
  | some e =>
    cases e with
    | directory =>
      refine ⟨f, ?_, fun _ _ ↦ rfl⟩
      simp only [enterAll, enter, hstep, hold]
      rfl
    | file data =>
      obtain ⟨new, hnew⟩ := h.files _ data hold
      obtain ⟨hdirectory, _⟩ | ⟨hnone, _⟩ := hthere
      · cases hnew.symm.trans hdirectory
      · cases hnew.symm.trans hnone

/-- A file that is put into a directory leaves everything in directories. -/
theorem Rooted.put_file {directory : Place} {name : String} (h : f.Rooted)
    (hdirectory : f.entry? directory = some .directory)
    (hentry : f.entry? (directory ++ [name]) ≠ some .directory) (data : ByteArray) :
    (f.put (directory ++ [name]) (.file data)).Rooted := by
  have hhouses := houses_put hentry data
  intro other last e hold
  rw [entry?_put (ne_nil_of_not_directory hentry)] at hold
  split at hold
  · next heq =>
    obtain ⟨rfl, _⟩ := List.append_inj' heq rfl
    exact hhouses.directories _ hdirectory
  · exact hhouses.directories _ (h other last e hold)

end SheetPackages.Files
