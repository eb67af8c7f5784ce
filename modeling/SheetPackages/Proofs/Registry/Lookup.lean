import SheetPackages.Proofs.Registry.Directory

/-!
# Looking for archives

A registry looks for an archive at two paths at most, one after the other. In a directory that is a
function of the files: of the index there and of what is found at the two paths.
-/

namespace SheetPackages.Registry

variable {index : Index} {name version : String}

/-- What comes of looking at the path of the index and then at the conventional one, when each path
is always answered in the same way. -/
def picked (found : String → Except Fault (Option ByteArray)) (index : Index)
    (name version : String) : Except Fault ByteArray := do
  match ← found (archivePath index name version) with
  | some data => return data
  | none =>
    match ← if archivePath index name version = conventionalPath name version then pure none
      else found (conventionalPath name version) with
    | some data => return data
    | none => throw (.versionNotFound name version)

theorem picked_congr {found other : String → Except Fault (Option ByteArray)}
    (hprimary : found (archivePath index name version) = other (archivePath index name version))
    (hconventional : found (conventionalPath name version) =
      other (conventionalPath name version)) :
    picked found index name version = picked other index name version := by
  rw [picked, picked, hprimary, hconventional]

/-- An archive is picked by what the registry answers, in worlds in which it always answers so. -/
theorem run_archive {r : Registry} {found : String → Except Fault (Option ByteArray)}
    {before : World × IndexCache} {w : World} {c : IndexCache} (answering : World → Prop)
    (hindex : r.index.run.run before = (.ok index, w, c)) (hw : answering w)
    (hread : ∀ v, answering v → ∀ path,
      path = archivePath index name version ∨ path = conventionalPath name version →
      ∃ after, (r.read path).runIn v = (found path, after) ∧ answering after) :
    ((r.archive name version).run.run before).1 = picked found index name version := by
  obtain ⟨v, hprimary, hv⟩ := hread w hw _ (.inl rfl)
  obtain ⟨u, hconventional, -⟩ := hread v hv _ (.inr rfl)
  rw [archive, run_bind_of_ok hindex]
  simp only
  cases hfirst : found (archivePath index name version) with
  | error fault =>
    rw [hfirst] at hprimary
    rw [picked, hfirst, run_bind_of_error (Supply.run_ofAction hprimary c)]
    rfl
  | ok first =>
    rw [hfirst] at hprimary
    rw [picked, hfirst, run_bind_of_ok (Supply.run_ofAction hprimary c)]
    cases first with
    | some data => rfl
    | none =>
      simp only
      by_cases hsame : archivePath index name version = conventionalPath name version
      · rw [if_pos hsame]
        simp only [if_pos hsame]
        rfl
      · rw [if_neg hsame]
        simp only [if_neg hsame]
        cases hsecond : found (conventionalPath name version) with
        | error fault =>
          rw [hsecond] at hconventional
          rw [run_bind_of_error (Supply.run_ofAction hconventional c)]
          rfl
        | ok second =>
          rw [hsecond] at hconventional
          rw [run_bind_of_ok (Supply.run_ofAction hconventional c)]
          cases second <;> rfl

/-! ## In a directory -/

/-- The index that is in a directory. -/
def indexIn (f : Files) (root : String) : Except Fault Index :=
  let path := Path.join root "index.json"
  match f.read path with
  | .ok data => Index.ofBytes data
  | .error _ => .error (.ofSystem s!"Failed to read {path}")

/-- The file at a path, nothing, or an obstacle. -/
def presentAt (f : Files) (path : String) : Except Fault (Option ByteArray) :=
  match f.read path with
  | .ok data => .ok (some data)
  | .error .notFound => .ok none
  | .error _ => .error (.ofSystem s!"Failed to read {path}")

/-- What is found below a directory at a path, which has to be safe. -/
def foundBelow (f : Files) (root path : String) : Except Fault (Option ByteArray) :=
  Path.safeJoin root path >>= presentAt f

theorem runIn_readIndexIn (root : String) (w : World) :
    (readIndexIn root).runIn w = (indexIn w.files root, w) := by
  simp only [indexIn]
  change ((Action.orFault _ (w.files.read (Path.join root "index.json")) >>= fun data ↦
    (liftM (Index.ofBytes data) : Action Index)).runIn w) = _
  cases w.files.read (Path.join root "index.json") <;> rfl

theorem runIn_readBelow (root path : String) (w : World) :
    (readBelow root path).runIn w = (foundBelow w.files root path, w) := by
  rw [readBelow, foundBelow]
  cases Path.safeJoin root path with
  | error fault => rfl
  | ok joined => exact Action.runIn_readIfPresent _ joined w

/-- An archive is picked from what is found in the directory, and nothing changes. -/
theorem run_directory_archive (root name version : String) (w : World) (c : IndexCache) :
    ((Registry.directory root).archive name version).run.run (w, c) =
      (do picked (foundBelow w.files root) (← indexIn w.files root) name version, w, c) := by
  have hindex := Supply.run_ofAction (runIn_readIndexIn root w) c
  refine Prod.ext ?_ (still_archive root name version (w, c))
  cases hread : indexIn w.files root with
  | error fault =>
    rw [hread] at hindex
    rw [archive, index, run_bind_of_error hindex]
    rfl
  | ok i =>
    rw [hread] at hindex
    exact run_archive (· = w) hindex rfl fun v hv path _ ↦
      ⟨w, hv ▸ runIn_readBelow root path w, rfl⟩

end SheetPackages.Registry
