import SheetPackages.Proofs.World.Replacing

/-!
# Files that are erased

What is erased goes with everything below it and nothing else, so that whatever is left is in a
directory still. A path that leads somewhere before and after leads to the same place, also when
directories have been made again in between.
-/

namespace SheetPackages.Files

variable {f g : Files} {path : String} {place : Place}

theorem lookup_filter_fst (keep : Place → Bool) (other : Place) (entries : List (Place × Entry)) :
    (entries.filter fun e ↦ keep e.1).lookup other =
      if keep other = true then entries.lookup other else none := by
  induction entries with
  | nil => simp
  | cons entry rest ih =>
    obtain ⟨first, e⟩ := entry
    rw [List.filter_cons]
    by_cases hfirst : other = first
    · subst hfirst
      by_cases hkeep : keep other = true
      · simp [hkeep]
      · rw [if_neg hkeep, ih, if_neg hkeep, if_neg hkeep]
    · have hb : (other == first) = false := by simpa using hfirst
      by_cases hkeep : keep first = true
      · simp only [if_pos hkeep, List.lookup_cons, hb, ih]
      · simp only [if_neg hkeep, List.lookup_cons, hb, ih]

/-- What is at a place after another one has been erased; the root stays a directory. -/
theorem entry?_erase (f : Files) (place other : Place) :
    entry? (f.erase place) other =
      if other ≠ [] ∧ place <+: other then none else f.entry? other := by
  have hkeep : (!place.isPrefixOf other) = true ↔ ¬place <+: other := by
    rw [Bool.not_eq_true', Bool.eq_false_iff, Ne, List.isPrefixOf_iff_prefix]
  unfold entry?
  by_cases hother : other = []
  · rw [if_pos hother, if_pos hother, if_neg fun h ↦ h.1 hother]
  · rw [if_neg hother, if_neg hother, erase, lookup_filter_fst fun p ↦ !place.isPrefixOf p]
    by_cases hprefix : place <+: other
    · rw [if_neg fun h ↦ hkeep.mp h hprefix, if_pos ⟨hother, hprefix⟩]
    · rw [if_pos (hkeep.mpr hprefix), if_neg fun h ↦ hprefix h.2]

theorem Rooted.erase (h : f.Rooted) (place : Place) : (f.erase place).Rooted := by
  intro other name e he
  rw [entry?_erase] at he ⊢
  split at he
  · cases he
  · next hkept =>
    rw [if_neg, h other name e he]
    exact fun hgone ↦ hkept ⟨by simp, hgone.2.trans (List.prefix_append other [name])⟩

/-! ## Paths that lead to one place -/

/-- A step leads to the same place in all files in which it leads somewhere. -/
theorem step_unique {next last : Place} {piece : List Char} (hf : f.step place piece = .ok next)
    (hg : g.step place piece = .ok last) : next = last := by
  have hsame : f.entry? place = g.entry? place :=
    (step_spec hf).1.trans (step_spec hg).1.symm
  exact Except.ok.inj (hf.symm.trans ((step_congr hsame piece).trans hg))

theorem foldlM_step_unique {next last : Place} {pieces : List (List Char)}
    (hf : pieces.foldlM f.step place = .ok next) (hg : pieces.foldlM g.step place = .ok last) :
    next = last := by
  induction pieces generalizing place with
  | nil => exact Except.ok.inj (hf.symm.trans hg)
  | cons piece rest ih =>
    rw [List.foldlM_cons] at hf hg
    obtain ⟨middle, hstep, hrest⟩ := exists_of_bind_eq_ok hf
    obtain ⟨middle', hstep', hrest'⟩ := exists_of_bind_eq_ok hg
    obtain rfl := step_unique hstep hstep'
    exact ih hrest hrest'

theorem locate_unique {next last : Place} (hhere : g.here = f.here)
    (hf : f.locate path = .ok next) (hg : g.locate path = .ok last) : next = last := by
  have hpath := Bool.eq_false_iff.mp (isEmpty_of_locate hf)
  rw [locate, if_neg hpath] at hf hg
  rw [hhere] at hg
  exact foldlM_step_unique hf hg

/-! ## Trees that are removed -/

theorem removeTree_eq_ok_iff : f.removeTree path = .ok g ↔
    ∃ place, f.locate path = .ok place ∧ f.entry? place = some .directory ∧
      g = f.erase place := by
  unfold removeTree
  rw [bind_eq_ok_iff]
  refine exists_congr fun place ↦ and_congr_right fun _ ↦ ?_
  cases hentry : f.entry? place with
  | none => simp
  | some e => cases e <;> simp [pure, Except.pure, eq_comm]

theorem exists?_of_isDirectory (h : f.isDirectory path = true) : f.exists? path = true := by
  rw [exists?, isDirectory_iff.mp h]
  rfl

/-- Below a directory that is removed and made again there is no file. -/
theorem not_file_of_removeTree {after : Files} {name : String} {rest : Place} {data : ByteArray}
    (hremoved : f.removeTree path = .ok g) (hmade : g.makeDirectories path = (.ok (), after))
    (hplace : after.locate path = .ok place) :
    after.entry? (place ++ name :: rest) ≠ some (.file data) := by
  obtain ⟨root, hroot, -, rfl⟩ := removeTree_eq_ok_iff.mp hremoved
  have hwidens := widens_makeDirectories (f.erase root) path
  rw [hmade] at hwidens
  have hhere : after.here = f.here := hwidens.within.here
  obtain rfl : root = place := locate_unique hhere hroot hplace
  intro hfile
  have hold := hwidens.files _ data hfile
  rw [entry?_erase, if_pos ⟨by simp, List.prefix_append root _⟩] at hold
  cases hold

/-! ## Files that are moved -/

/-- What is read where a file has been moved to was read where it came from. -/
theorem read_of_move {source target : String} {data : ByteArray}
    (hsource : f.read source = .ok data) (h : f.move source target = .ok g) :
    g.read target = .ok data := by
  obtain ⟨moved, hmoved, h⟩ := exists_of_bind_eq_ok h
  obtain ⟨place, -, hwritten⟩ := exists_of_bind_eq_ok h
  cases hsource.symm.trans hmoved
  exact read_of_write hwritten

end SheetPackages.Files
