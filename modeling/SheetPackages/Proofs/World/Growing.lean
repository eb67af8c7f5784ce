import SheetPackages.Proofs.Text.Cutting
import SheetPackages.World.Files

/-!
# Files that are added

What becomes of paths when files and directories are added and nothing is taken away: a path to
something leads to the same place, where there is the same as before. Making directories only adds
some, and writing a file where there is none only adds this file; both keep everything in
directories. A path that leads nowhere may lead somewhere later, but new directories alone do not
bring a file to a path through directories that were there.
-/

namespace SheetPackages.Files

variable {f g k : Files} {path : String}

/-- All directories of `f` are in `g` as well. -/
structure Houses (f g : Files) : Prop where
  here : g.here = f.here
  directories : ∀ place, f.entry? place = some .directory → g.entry? place = some .directory

namespace Houses

theorem refl (f : Files) : Houses f f :=
  ⟨rfl, fun _ h ↦ h⟩

theorem trans (h : Houses f g) (h' : Houses g k) : Houses f k :=
  ⟨h'.here.trans h.here, fun place hplace ↦ h'.directories place (h.directories place hplace)⟩

theorem step (h : Houses f g) {place next : Place} {piece : List Char}
    (hstep : f.step place piece = .ok next) : g.step place piece = .ok next := by
  unfold Files.step at hstep ⊢
  cases hentry : f.entry? place with
  | none =>
    rw [hentry] at hstep
    cases hstep
  | some e =>
    rw [hentry] at hstep
    cases e with
    | file data => cases hstep
    | directory => rwa [h.directories place hentry]

theorem foldlM_step (h : Houses f g) {pieces : List (List Char)} {place last : Place}
    (hsteps : pieces.foldlM f.step place = .ok last) : pieces.foldlM g.step place = .ok last := by
  induction pieces generalizing place with
  | nil => exact hsteps
  | cons piece rest ih =>
    rw [List.foldlM_cons] at hsteps ⊢
    cases hstep : f.step place piece with
    | error refusal =>
      rw [hstep] at hsteps
      cases hsteps
    | ok next =>
      rw [hstep] at hsteps
      rw [h.step hstep]
      exact ih hsteps

/-- A path leads only through directories, so it leads to the same place. -/
theorem locate (h : Houses f g) {place : Place} (hpath : f.locate path = .ok place) :
    g.locate path = .ok place := by
  unfold Files.locate at hpath ⊢
  split
  · next hempty =>
    rw [if_pos hempty] at hpath
    cases hpath
  · next hempty =>
    rw [if_neg hempty] at hpath
    rw [h.here]
    exact h.foldlM_step hpath

end Houses

/-- All that is in `f` is in `g` as well, as it is. -/
structure Within (f g : Files) : Prop where
  here : g.here = f.here
  kept : ∀ place e, f.entry? place = some e → g.entry? place = some e

namespace Within

theorem refl (f : Files) : Within f f :=
  ⟨rfl, fun _ _ h ↦ h⟩

theorem trans (h : Within f g) (h' : Within g k) : Within f k :=
  ⟨h'.here.trans h.here, fun place e he ↦ h'.kept place e (h.kept place e he)⟩

theorem houses (h : Within f g) : Houses f g :=
  ⟨h.here, fun place ↦ h.kept place .directory⟩

/-! ## Paths -/

theorem step (h : Within f g) {place next : Place} {piece : List Char}
    (hstep : f.step place piece = .ok next) : g.step place piece = .ok next :=
  h.houses.step hstep

theorem locate (h : Within f g) {place : Place} (hpath : f.locate path = .ok place) :
    g.locate path = .ok place :=
  h.houses.locate hpath

end Within

theorem find_eq_ok_iff {e : Entry} :
    f.find path = .ok e ↔ ∃ place, f.locate path = .ok place ∧ f.entry? place = some e := by
  unfold find
  cases f.locate path with
  | error refusal => simp [bind, Except.bind]
  | ok place =>
    cases hentry : f.entry? place <;> simp [bind, Except.bind, pure, Except.pure, hentry]

theorem read_eq_ok_iff {data : ByteArray} :
    f.read path = .ok data ↔ f.find path = .ok (.file data) := by
  unfold read
  cases f.find path with
  | error refusal => simp [bind, Except.bind]
  | ok e => cases e <;> simp [bind, Except.bind, pure, Except.pure]

theorem isDirectory_iff : f.isDirectory path = true ↔ f.find path = .ok .directory := by
  rw [isDirectory]
  cases f.find path with
  | error refusal => simp
  | ok e => cases e <;> simp

theorem Houses.isDirectory (h : Houses f g) (hdirectory : f.isDirectory path = true) :
    g.isDirectory path = true := by
  obtain ⟨place, hplace, hentry⟩ := find_eq_ok_iff.mp (isDirectory_iff.mp hdirectory)
  exact isDirectory_iff.mpr
    (find_eq_ok_iff.mpr ⟨place, h.locate hplace, h.directories place hentry⟩)

theorem isFile_iff : f.isFile path = true ↔ ∃ data, f.read path = .ok data := by
  simp only [read_eq_ok_iff, isFile]
  cases f.find path with
  | error refusal => simp
  | ok e => cases e <;> simp

namespace Within

theorem find (h : Within f g) {e : Entry} (hfind : f.find path = .ok e) :
    g.find path = .ok e := by
  obtain ⟨place, hplace, hentry⟩ := find_eq_ok_iff.mp hfind
  exact find_eq_ok_iff.mpr ⟨place, h.locate hplace, h.kept place e hentry⟩

theorem read (h : Within f g) {data : ByteArray} (hread : f.read path = .ok data) :
    g.read path = .ok data :=
  read_eq_ok_iff.mpr (h.find (read_eq_ok_iff.mp hread))

theorem isFile (h : Within f g) (hfile : f.isFile path = true) : g.isFile path = true := by
  obtain ⟨data, hread⟩ := isFile_iff.mp hfile
  exact isFile_iff.mpr ⟨data, h.read hread⟩

theorem isDirectory (h : Within f g) (hdirectory : f.isDirectory path = true) :
    g.isDirectory path = true :=
  h.houses.isDirectory hdirectory

theorem canonical (h : Within f g) {absolute : String} (hpath : f.canonical path = .ok absolute) :
    g.canonical path = .ok absolute := by
  unfold Files.canonical at hpath ⊢
  cases hplace : f.locate path with
  | error refusal =>
    rw [hplace] at hpath
    cases hpath
  | ok place =>
    rw [hplace] at hpath
    rw [h.locate hplace]
    cases hentry : f.entry? place with
    | none => simp [bind, Except.bind, hentry] at hpath
    | some e => simpa [bind, Except.bind, hentry, h.kept place e hentry] using hpath

end Within

/-! ## Changes -/

theorem lookup_putAt (place other : Place) (e : Entry) (entries : List (Place × Entry)) :
    (putAt place e entries).lookup other =
      if other = place then some e else entries.lookup other := by
  induction entries with
  | nil =>
    by_cases h : other = place
    · simp [putAt, h]
    · have hb : (other == place) = false := by simpa using h
      simp [putAt, List.lookup_cons, h, hb]
  | cons entry rest ih =>
    obtain ⟨first, old⟩ := entry
    by_cases hfirst : first = place
    · subst hfirst
      by_cases h : other = first
      · simp [putAt, h]
      · have hb : (other == first) = false := by simpa using h
        simp [putAt, List.lookup_cons, h, hb]
    · simp only [putAt, if_neg hfirst, List.lookup_cons, ih]
      by_cases h : other = place
      · subst h
        have hb : (other == first) = false := by simpa using fun heq ↦ hfirst heq.symm
        simp [hb]
      · simp [h]

theorem entry?_put {place : Place} (hplace : place ≠ []) (e : Entry) (other : Place) :
    entry? (f.put place e) other = if other = place then some e else f.entry? other := by
  unfold entry?
  by_cases hroot : other = []
  · rw [if_pos hroot, if_pos hroot, if_neg (hroot ▸ hplace.symm)]
  · rw [if_neg hroot, if_neg hroot, put, lookup_putAt]

theorem ne_nil_of_entry?_eq_none {place : Place} (h : f.entry? place = none) : place ≠ [] := by
  rintro rfl
  cases h

/-- Something is added where there is nothing. -/
theorem within_put {place : Place} (h : f.entry? place = none) (e : Entry) :
    Within f (f.put place e) where
  here := rfl
  kept other old hold := by
    have hne : other ≠ place := by
      rintro rfl
      rw [h] at hold
      cases hold
    rw [entry?_put (ne_nil_of_entry?_eq_none h), if_neg hne, hold]

/-! ## Directories -/

/-- What is anywhere is in a directory. -/
def Rooted (f : Files) : Prop :=
  ∀ place name e, f.entry? (place ++ [name]) = some e → f.entry? place = some .directory

theorem step_spec {place next : Place} {piece : List Char} (h : f.step place piece = .ok next) :
    f.entry? place = some .directory ∧
      (next = place ∨ next = place.dropLast ∨ next = place ++ [String.ofList piece]) := by
  unfold step at h
  split at h
  · cases h
  · cases h
  · next hplace =>
    refine ⟨hplace, ?_⟩
    split at h
    · exact .inl (Except.ok.inj h).symm
    · split at h
      · exact .inr (.inl (Except.ok.inj h).symm)
      · simp only at h
        split at h
        · cases h
        · exact .inr (.inr (Except.ok.inj h).symm)

namespace Rooted

theorem dropLast (h : f.Rooted) {place : Place} {e : Entry} (hplace : f.entry? place = some e) :
    f.entry? place.dropLast = some .directory := by
  rcases List.eq_nil_or_concat' place with rfl | ⟨before, name, rfl⟩
  · rfl
  · rw [List.dropLast_concat]
    exact h before name e hplace

/-- A step to where nothing is goes down. -/
theorem eq_concat_of_step (h : f.Rooted) {place next : Place} {piece : List Char}
    (hstep : f.step place piece = .ok next) (hnext : f.entry? next = none) :
    f.entry? place = some .directory ∧ next = place ++ [String.ofList piece] := by
  obtain ⟨hplace, rfl | rfl | rfl⟩ := step_spec hstep
  · cases hnext.symm.trans hplace
  · cases hnext.symm.trans (h.dropLast hplace)
  · exact ⟨hplace, rfl⟩

theorem put (h : f.Rooted) {place : Place} {name : String}
    (hplace : f.entry? place = some .directory) (hnew : f.entry? (place ++ [name]) = none)
    (e : Entry) : (f.put (place ++ [name]) e).Rooted := by
  have hwithin := within_put hnew e
  intro other last old hold
  rw [entry?_put (ne_nil_of_entry?_eq_none hnew)] at hold
  split at hold
  · next heq =>
    rw [(List.append_inj' heq rfl).1]
    exact hwithin.kept place _ hplace
  · exact hwithin.kept other _ (h other last old hold)

end Rooted

/-- `g` is `f` with directories added. -/
structure Widens (f g : Files) : Prop where
  within : Within f g
  files : ∀ place data, g.entry? place = some (.file data) → f.entry? place = some (.file data)
  rooted : f.Rooted → g.Rooted

namespace Widens

theorem refl (f : Files) : Widens f f :=
  ⟨.refl f, fun _ _ h ↦ h, fun h ↦ h⟩

theorem trans (h : Widens f g) (h' : Widens g k) : Widens f k :=
  ⟨h.within.trans h'.within, fun place data hfile ↦ h.files place data (h'.files place data hfile),
    fun hrooted ↦ h'.rooted (h.rooted hrooted)⟩

end Widens

/-- What is entered is a directory already or becomes one. -/
theorem enter_spec {place next : Place} {piece : List Char}
    (h : enter place f piece = .ok (next, g)) :
    f.step place piece = .ok next ∧
      ( f.entry? next = some .directory ∧ g = f ∨
        f.entry? next = none ∧ g = f.put next .directory) := by
  unfold enter at h
  cases hstep : f.step place piece with
  | error refusal =>
    rw [hstep] at h
    cases h
  | ok reached =>
    rw [hstep] at h
    cases hentry : f.entry? reached with
    | none =>
      simp only [hentry] at h
      cases h
      exact ⟨rfl, .inr ⟨hentry, rfl⟩⟩
    | some e =>
      cases e with
      | directory =>
        simp only [hentry] at h
        cases h
        exact ⟨rfl, .inl ⟨hentry, rfl⟩⟩
      | file data =>
        simp only [hentry] at h
        cases h

theorem entry?_of_enter {place next : Place} {piece : List Char}
    (h : enter place f piece = .ok (next, g)) : g.entry? next = some .directory := by
  obtain ⟨_, ⟨hthere, rfl⟩ | ⟨hnew, rfl⟩⟩ := enter_spec h
  · exact hthere
  · rw [entry?_put (ne_nil_of_entry?_eq_none hnew), if_pos rfl]

theorem widens_enter {place next : Place} {piece : List Char}
    (h : enter place f piece = .ok (next, g)) : Widens f g := by
  obtain ⟨hstep, ⟨_, rfl⟩ | ⟨hnew, rfl⟩⟩ := enter_spec h
  · exact .refl _
  · refine ⟨within_put hnew _, fun other data hfile ↦ ?_, fun hrooted ↦ ?_⟩
    · rw [entry?_put (ne_nil_of_entry?_eq_none hnew)] at hfile
      split at hfile
      · cases hfile
      · exact hfile
    · obtain ⟨hplace, rfl⟩ := hrooted.eq_concat_of_step hstep hnew
      exact hrooted.put hplace hnew _

theorem eq_of_enter_error {place : Place} {piece : List Char} {refusal : Refusal}
    (h : enter place f piece = .error (refusal, g)) : g = f := by
  unfold enter at h
  split at h
  · cases h
    rfl
  · split at h
    · cases h
    · cases h
      rfl
    · cases h

theorem widens_enterAll (place : Place) (f : Files) (pieces : List (List Char)) :
    Widens f (enterAll place f pieces).2 := by
  induction pieces generalizing place f with
  | nil => exact .refl f
  | cons piece rest ih =>
    rw [enterAll]
    cases hentered : enter place f piece with
    | error failure =>
      rw [eq_of_enter_error hentered]
      exact .refl f
    | ok entered => exact (widens_enter hentered).trans (ih entered.1 entered.2)

/-- Making directories adds some, perhaps not all of them. -/
theorem widens_makeDirectories (f : Files) (path : String) :
    Widens f (f.makeDirectories path).2 := by
  unfold makeDirectories
  split
  · exact .refl f
  · exact widens_enterAll _ f _

theorem exists_of_enterAll_cons {place : Place} {piece : List Char} {rest : List (List Char)}
    (h : enterAll place f (piece :: rest) = (.ok (), g)) :
    ∃ next between, enter place f piece = .ok (next, between) ∧
      enterAll next between rest = (.ok (), g) := by
  rw [enterAll] at h
  cases hentered : enter place f piece with
  | error failure =>
    rw [hentered] at h
    cases h
  | ok entered =>
    rw [hentered] at h
    exact ⟨entered.1, entered.2, rfl, h⟩

/-- When all pieces have been entered, they lead to a directory. -/
theorem foldlM_step_of_enterAll {place : Place} {pieces : List (List Char)}
    (hplace : f.entry? place = some .directory) (h : enterAll place f pieces = (.ok (), g)) :
    ∃ last, pieces.foldlM g.step place = .ok last ∧ g.entry? last = some .directory := by
  induction pieces generalizing place f with
  | nil =>
    cases h
    exact ⟨place, rfl, hplace⟩
  | cons piece rest ih =>
    have hwithin := (widens_enterAll place f (piece :: rest)).within
    rw [h] at hwithin
    obtain ⟨next, between, hentered, hrest⟩ := exists_of_enterAll_cons h
    obtain ⟨last, hlast, hdirectory⟩ := ih (entry?_of_enter hentered) hrest
    refine ⟨last, ?_, hdirectory⟩
    rw [List.foldlM_cons, hwithin.step (enter_spec hentered).1]
    exact hlast

/-- A directory that has been made is there. -/
theorem isDirectory_of_makeDirectories (hpath : path.isEmpty = false)
    (h : f.makeDirectories path = (.ok (), g)) : g.isDirectory path = true := by
  have hwithin := (widens_makeDirectories f path).within
  rw [h] at hwithin
  have hnonempty := Bool.eq_false_iff.mp hpath
  rw [makeDirectories, if_neg hnonempty] at h
  have hstart : f.entry? (if Path.isAbsolute path then [] else f.here) = some .directory := by
    cases hpieces : Text.pieces '/' path.toList with
    | nil => exact absurd hpieces (Text.pieces_ne_nil '/' path.toList)
    | cons piece rest =>
      rw [hpieces] at h
      obtain ⟨_, _, hentered, _⟩ := exists_of_enterAll_cons h
      exact (step_spec (enter_spec hentered).1).1
  obtain ⟨last, hlast, hdirectory⟩ := foldlM_step_of_enterAll hstart h
  refine isDirectory_iff.mpr (find_eq_ok_iff.mpr ⟨last, ?_, hdirectory⟩)
  rw [locate, if_neg hnonempty, hwithin.here]
  exact hlast

/-! ## Files that are written -/

theorem exists_of_write {data : ByteArray} (hnew : f.isFile path = false)
    (h : f.write path data = .ok g) :
    ∃ place, f.locate path = .ok place ∧ f.entry? place = none ∧ g = f.put place (.file data) := by
  unfold write at h
  cases hplace : f.locate path with
  | error refusal =>
    rw [hplace] at h
    cases h
  | ok place =>
    rw [hplace] at h
    cases hentry : f.entry? place with
    | none =>
      simp only [bind, Except.bind, hentry] at h
      cases h
      exact ⟨place, rfl, hentry, rfl⟩
    | some e =>
      cases e with
      | directory =>
        simp only [bind, Except.bind, hentry] at h
        cases h
      | file old =>
        have hfile : f.isFile path = true :=
          isFile_iff.mpr ⟨old, read_eq_ok_iff.mpr (find_eq_ok_iff.mpr ⟨place, hplace, hentry⟩)⟩
        cases hnew.symm.trans hfile

/-- The place of a path to nothing is in a directory. -/
theorem Rooted.exists_concat_of_locate (h : f.Rooted) {place : Place}
    (hplace : f.locate path = .ok place) (hnew : f.entry? place = none) :
    ∃ directory name, place = directory ++ [name] ∧ f.entry? directory = some .directory := by
  unfold locate at hplace
  split at hplace
  · cases hplace
  · obtain ⟨before, piece, hpieces⟩ :=
      (List.eq_nil_or_concat' _).resolve_left (Text.pieces_ne_nil '/' path.toList)
    rw [hpieces, List.foldlM_append] at hplace
    cases hsteps : before.foldlM f.step (if Path.isAbsolute path then [] else f.here) with
    | error refusal =>
      rw [hsteps] at hplace
      cases hplace
    | ok last =>
      rw [hsteps] at hplace
      change f.step last piece >>= pure = .ok place at hplace
      rw [bind_pure] at hplace
      obtain ⟨hlast, heq⟩ := h.eq_concat_of_step hplace hnew
      exact ⟨last, _, heq, hlast⟩

/-- A file that is written where there is none can be read, and nothing is changed besides. -/
theorem of_write {data : ByteArray} (hnew : f.isFile path = false)
    (h : f.write path data = .ok g) :
    Within f g ∧ g.read path = .ok data ∧ (f.Rooted → g.Rooted) := by
  obtain ⟨place, hplace, hentry, rfl⟩ := exists_of_write hnew h
  have hwithin := within_put hentry (.file data)
  refine ⟨hwithin, ?_, fun hrooted ↦ ?_⟩
  · refine read_eq_ok_iff.mpr (find_eq_ok_iff.mpr ⟨place, hwithin.locate hplace, ?_⟩)
    rw [entry?_put (ne_nil_of_entry?_eq_none hentry), if_pos rfl]
  · obtain ⟨directory, name, rfl, hdirectory⟩ := hrooted.exists_concat_of_locate hplace hentry
    exact hrooted.put hdirectory hentry _

/-! ## Names in directories -/

/-- A text that is the name of something in a directory: no separator, and none of the pieces that
lead elsewhere. -/
structure IsName (name : String) : Prop where
  separator : '/' ∉ name.toList
  trivial : Path.isTrivial name.toList = false
  parent : name.toList ≠ ['.', '.']

theorem step_name {place next : Place} {name : String} (hname : IsName name)
    (h : f.step place name.toList = .ok next) :
    f.entry? place = some .directory ∧ next = place ++ [name] := by
  unfold step at h
  cases hentry : f.entry? place with
  | none =>
    rw [hentry] at h
    cases h
  | some e =>
    rw [hentry] at h
    cases e with
    | file data => cases h
    | directory =>
      simp only [hname.trivial, Bool.false_eq_true, if_false, if_neg hname.parent,
        String.ofList_toList] at h
      split at h
      · cases h
      · exact ⟨rfl, (Except.ok.inj h).symm⟩

theorem step_congr {place : Place} (h : f.entry? place = g.entry? place) (piece : List Char) :
    f.step place piece = g.step place piece := by
  rw [step, step, h]

/-- An empty piece before another changes nothing. -/
theorem step_nil_bind (f : Files) (place : Place) (piece : List Char) :
    f.step place [] >>= (f.step · piece) = f.step place piece := by
  cases hentry : f.entry? place with
  | none =>
    simp only [step, hentry]
    rfl
  | some e =>
    cases e with
    | file data =>
      simp only [step, hentry]
      rfl
    | directory =>
      have hstay : f.step place [] = .ok place := by
        simp only [step, hentry]
        rfl
      rw [hstay]
      rfl

variable {base name : String}

/-- A name behind a path that ends with a separator or not. -/
theorem toList_join (hbase : base.isEmpty = false) (hname : IsName name) :
    (Path.join base name).toList = base.toList ++ '/' :: name.toList ∨
      ∃ before, base.toList = before ++ ['/'] ∧
        (Path.join base name).toList = before ++ '/' :: name.toList := by
  have hrelative : Path.isAbsolute name = false := by
    rw [Path.isAbsolute, decide_eq_false_iff_not]
    exact fun hhead ↦ hname.separator (List.mem_of_head? hhead)
  rw [Path.join, if_neg (Bool.eq_false_iff.mp hrelative)]
  split
  · next hends =>
    have hlast := hends.resolve_left (Bool.eq_false_iff.mp hbase)
    obtain ⟨before, hbefore⟩ := List.getLast?_eq_some_iff.mp hlast
    refine .inr ⟨before, hbefore, ?_⟩
    rw [String.toList_append, hbefore, List.append_assoc]
    rfl
  · left
    rw [String.toList_append, String.toList_append, List.append_assoc]
    rfl

/-- The pieces of a path with a name behind it are those of the path and the name, but for an empty
one between them. -/
theorem foldlM_pieces_join (hbase : base.isEmpty = false) (hname : IsName name) (f : Files)
    (start : Place) : (Text.pieces '/' (Path.join base name).toList).foldlM f.step start =
      (Text.pieces '/' base.toList).foldlM f.step start >>= (f.step · name.toList) := by
  have hstep (place : Place) : [name.toList].foldlM f.step place = f.step place name.toList :=
    bind_pure _
  rcases toList_join hbase hname with hjoin | ⟨before, hbefore, hjoin⟩
  · rw [hjoin, Text.pieces_append, Text.pieces_of_not_mem hname.separator, List.foldlM_append]
    exact bind_congr hstep
  · have hempty (place : Place) : [[]].foldlM f.step place = f.step place [] := bind_pure _
    rw [hjoin, hbefore, Text.pieces_append, Text.pieces_append, Text.pieces,
      Text.pieces_of_not_mem hname.separator, List.foldlM_append, List.foldlM_append, bind_assoc]
    refine bind_congr fun place ↦ ?_
    rw [hstep, hempty, step_nil_bind]

theorem isEmpty_join (hbase : base.isEmpty = false) (hname : IsName name) :
    (Path.join base name).isEmpty = false := by
  rw [Bool.eq_false_iff, Ne, String.isEmpty_iff, ← String.toList_eq_nil_iff]
  rcases toList_join hbase hname with hjoin | ⟨before, _, hjoin⟩ <;> simp [hjoin]

theorem isAbsolute_join (hbase : base.isEmpty = false) (hname : IsName name) :
    Path.isAbsolute (Path.join base name) = Path.isAbsolute base := by
  have hne : base.toList ≠ [] := by
    rw [Ne, String.toList_eq_nil_iff, ← String.isEmpty_iff, hbase]
    exact Bool.false_ne_true
  have hhead : (Path.join base name).toList.head? = base.toList.head? := by
    rcases toList_join hbase hname with hjoin | ⟨before, hbefore, hjoin⟩
    · rw [hjoin, List.head?_append_of_ne_nil _ hne]
    · rw [hjoin, hbefore, List.head?_append, List.head?_append]
      rfl
  rw [Path.isAbsolute, Path.isAbsolute, hhead]

/-- What a name behind a path leads to is one step further. -/
theorem locate_join (hbase : base.isEmpty = false) (hname : IsName name) (f : Files) :
    f.locate (Path.join base name) = f.locate base >>= (f.step · name.toList) := by
  rw [locate, locate, if_neg (Bool.eq_false_iff.mp (isEmpty_join hbase hname)),
    if_neg (Bool.eq_false_iff.mp hbase), isAbsolute_join hbase hname]
  exact foldlM_pieces_join hbase hname f _

theorem isEmpty_of_locate {place : Place} (h : f.locate path = .ok place) :
    path.isEmpty = false := by
  rw [Bool.eq_false_iff]
  intro hempty
  rw [locate, if_pos hempty] at h
  cases h

theorem locate_join_join {inner : String} {root : Place} (hroot : f.locate base = .ok root)
    (hname : IsName name) (hinner : IsName inner) :
    f.locate (Path.join (Path.join base name) inner) =
      f.step root name.toList >>= (f.step · inner.toList) := by
  have hbase := isEmpty_of_locate hroot
  rw [locate_join (isEmpty_join hbase hname) hinner, locate_join hbase hname, hroot]
  rfl

/-- A file that is at a path when directories have been added was there before, if it is in a
directory in one that was there. -/
theorem Widens.read_join (h : Widens f g) (hrooted : f.Rooted)
    (hbase : f.isDirectory base = true) {inner : String} (hname : IsName name)
    (hinner : IsName inner) {data : ByteArray}
    (hread : g.read (Path.join (Path.join base name) inner) = .ok data) :
    f.read (Path.join (Path.join base name) inner) = .ok data := by
  obtain ⟨place, hplace, hentry⟩ := find_eq_ok_iff.mp (read_eq_ok_iff.mp hread)
  obtain ⟨root, hroot, hdirectory⟩ := find_eq_ok_iff.mp (isDirectory_iff.mp hbase)
  rw [locate_join_join (h.within.locate hroot) hname hinner] at hplace
  cases hfirst : g.step root name.toList with
  | error refusal =>
    rw [hfirst] at hplace
    cases hplace
  | ok middle =>
    rw [hfirst] at hplace
    obtain ⟨hmiddle, rfl⟩ := step_name hinner hplace
    -- The file has not been added, so neither has the directory that it is in.
    have hold := h.files _ data hentry
    have hthere := hrooted middle inner _ hold
    have hlocate : f.locate (Path.join (Path.join base name) inner) = .ok (middle ++ [inner]) := by
      have hsame : f.step root name.toList = .ok middle := by
        rw [step_congr (hdirectory.trans (h.within.kept _ _ hdirectory).symm), hfirst]
      rw [locate_join_join hroot hname hinner, hsame]
      change f.step middle inner.toList = _
      rw [step_congr (hthere.trans hmiddle.symm)]
      exact hplace
    exact read_eq_ok_iff.mpr (find_eq_ok_iff.mpr ⟨_, hlocate, hold⟩)

theorem Widens.isFile_join (h : Widens f g) (hrooted : f.Rooted)
    (hbase : f.isDirectory base = true) {inner : String} (hname : IsName name)
    (hinner : IsName inner) (hfile : g.isFile (Path.join (Path.join base name) inner) = true) :
    f.isFile (Path.join (Path.join base name) inner) = true := by
  obtain ⟨data, hread⟩ := isFile_iff.mp hfile
  exact isFile_iff.mpr ⟨data, h.read_join hrooted hbase hname hinner hread⟩

end SheetPackages.Files
