import SheetPackages.Proofs.Path.Safety
import SheetPackages.Proofs.Registry.Lookup

/-!
# Directories that are not left

The index of a registry may name any path for an archive, and names and versions that are asked for
become parts of a path as well. Whatever they are, a registry in a directory reads files below this
directory only: nothing else among the files makes a difference to the archive that is given out. A
path that is not safe is refused before anything is read there. The directory itself may be reached
by any path. Links among the files are not described.
-/

namespace SheetPackages.Registry

variable {f g : Files} {root path name version : String} {index : Index} {data : ByteArray}

/-! ## Reading -/

/-- The same is read in both at every path below the root. -/
def AgreeBelow (root : String) (f g : Files) : Prop :=
  ∀ path, Path.Below root path → f.read path = g.read path

theorem below_index (root : String) : Path.Below root (Path.join root "index.json") := by
  have hname : Path.ofNames ["index.json"] = "index.json" := by decide
  rw [← hname]
  exact Path.below_join root (List.forall_mem_singleton.mpr ⟨by decide, by decide, by decide⟩)

theorem indexIn_congr (h : AgreeBelow root f g) : indexIn f root = indexIn g root := by
  simp only [indexIn, h _ (below_index root)]

theorem foundBelow_congr (h : AgreeBelow root f g) (path : String) :
    foundBelow f root path = foundBelow g root path := by
  rw [foundBelow, foundBelow]
  cases hjoined : Path.safeJoin root path with
  | error fault => rfl
  | ok joined =>
    change presentAt f joined = presentAt g joined
    rw [presentAt, presentAt, h joined (Path.below_of_safeJoin hjoined)]

/-- What is found is in a file below the root. -/
theorem exists_of_foundBelow (h : foundBelow f root path = .ok (some data)) :
    ∃ joined, Path.Below root joined ∧ f.read joined = .ok data := by
  obtain ⟨joined, hjoined, hfound⟩ := exists_of_bind_eq_ok h
  refine ⟨joined, Path.below_of_safeJoin hjoined, ?_⟩
  rw [presentAt] at hfound
  split at hfound <;> cases hfound
  assumption

theorem exists_of_picked {found : String → Except Fault (Option ByteArray)}
    (h : picked found index name version = .ok data) : ∃ path, found path = .ok (some data) := by
  obtain ⟨first, hfirst, h⟩ := exists_of_bind_eq_ok h
  cases first with
  | some primary =>
    cases h
    exact ⟨_, hfirst⟩
  | none =>
    simp only at h
    split at h
    · cases h
    · obtain ⟨second, hsecond, h⟩ := exists_of_bind_eq_ok h
      cases second with
      | none => cases h
      | some conventional =>
        cases h
        exact ⟨_, hsecond⟩

/-! ## Archives -/

/-- How an archive is given out in a world. -/
structure Confined (root name version : String) (w : World) : Prop where
  unchanged : ∀ c, (((Registry.directory root).archive name version).run.run (w, c)).2 = (w, c)
  determined : ∀ v, AgreeBelow root v.files w.files → ∀ c d,
    (((Registry.directory root).archive name version).run.run (v, c)).1 =
      (((Registry.directory root).archive name version).run.run (w, d)).1
  taken : ∀ c data,
    (((Registry.directory root).archive name version).run.run (w, c)).1 = .ok data →
      ∃ path, Path.Below root path ∧ w.files.read path = .ok data
  given : ∀ c index path data, indexIn w.files root = .ok index →
    Path.safeJoin root (archivePath index name version) = .ok path →
      w.files.read path = .ok data →
        (((Registry.directory root).archive name version).run.run (w, c)).1 = .ok data
  refused : ∀ c index, indexIn w.files root = .ok index →
    Path.isSafe (archivePath index name version) = false →
      (((Registry.directory root).archive name version).run.run (w, c)).1 =
        .error (.unsafePath (archivePath index name version))

/-- Safe paths are exactly the relative ones that never climb above their start, and joined to a
directory they only add names to it; so whatever the index says and whichever version is asked for,
an archive comes from a file below the directory, and files elsewhere do not matter. -/
theorem archive_confined (root : String) : (∀ path, Path.Fenced root path) ∧
    ∀ name version w, Confined root name version w := by
  refine ⟨Path.fenced root, fun name version w ↦ ?_⟩
  -- With the index read, the archive is whatever is found at the path that it gives.
  have hrun (c : IndexCache) (i : Index) (hindex : indexIn w.files root = .ok i) :
      (((Registry.directory root).archive name version).run.run (w, c)).1 =
        picked (foundBelow w.files root) i name version := by
    rw [run_directory_archive, hindex]
    rfl
  constructor
  case unchanged => exact fun c ↦ still_archive root name version (w, c)
  case determined =>
    intro v hagree c d
    rw [run_directory_archive, run_directory_archive, indexIn_congr hagree]
    exact congrArg (indexIn w.files root >>= ·) (funext fun i ↦
      picked_congr (foundBelow_congr hagree _) (foundBelow_congr hagree _))
  case taken =>
    intro c data hdata
    rw [run_directory_archive] at hdata
    obtain ⟨i, -, hpicked⟩ := exists_of_bind_eq_ok hdata
    obtain ⟨path, hfound⟩ := exists_of_picked hpicked
    exact exists_of_foundBelow hfound
  case given =>
    intro c i path data hindex hpath hdata
    have hfound : foundBelow w.files root (archivePath i name version) = .ok (some data) := by
      rw [foundBelow, hpath]
      change presentAt w.files path = .ok (some data)
      rw [presentAt, hdata]
    rw [hrun c i hindex, picked, hfound]
    rfl
  case refused =>
    intro c i hindex hunsafe
    have hrefused : foundBelow w.files root (archivePath i name version) =
        .error (.unsafePath (archivePath i name version)) := by
      rw [foundBelow, (Path.fenced root _).refused hunsafe]
      rfl
    rw [hrun c i hindex, picked, hrefused]
    rfl

/-- A directory with an index of two versions, of which one is said to be outside. -/
def tempted : Files where
  entries := [(["r"], .directory), (["text.gspkg"], .file "secret".toUTF8),
    (["r", "index.json"], .file ("\x7b\"text\":\x7b\"versions\":\x7b" ++
      "\"1.0.0\":\x7b\"path\":\"./gone/../text.gspkg\"\x7d," ++
      "\"2.0.0\":\x7b\"path\":\"gone/../../text.gspkg\"\x7d\x7d\x7d\x7d").toUTF8),
    (["r", "text.gspkg"], .file "v1".toUTF8)]

/-- A path that takes back only its own names leads to the file in the directory, and one that climbs
to the same name outside is refused. -/
theorem archive_confined_tempted :
    Path.safeJoin "/r" "./gone/../text.gspkg" = .ok "/r/text.gspkg" ∧
      (∃ path, Path.Below "/r" path ∧ tempted.read path = .ok "v1".toUTF8) ∧
      (((Registry.directory "/r").archive "text" "2.0.0").run.run
        ({ files := tempted, now := ⟨0⟩ }, {})).1 = .error (.unsafePath "gone/../../text.gspkg") := by
  have hconfined := fun version ↦
    (archive_confined "/r").2 "text" version { files := tempted, now := ⟨0⟩ }
  have hgiven : (((Registry.directory "/r").archive "text" "1.0.0").run.run
      ({ files := tempted, now := ⟨0⟩ }, {})).1.toOption = some "v1".toUTF8 := by decide +kernel
  have hnamed : (indexIn tempted "/r").toOption.map (archivePath · "text" "2.0.0") =
      some "gone/../../text.gspkg" := by decide +kernel
  obtain ⟨i, hindex, hpath⟩ := exists_of_map_toOption hnamed
  have hrefused := (hconfined "2.0.0").refused {} i hindex
  rw [hpath] at hrefused
  exact ⟨by decide +kernel, (hconfined "1.0.0").taken {} _ (toOption_eq_some_iff.mp hgiven),
    hrefused (by decide +kernel)⟩

end SheetPackages.Registry
