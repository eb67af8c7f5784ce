import SheetPackages.Proofs.Plan.Steady
import SheetPackages.Proofs.Archive.Keeping
import SheetPackages.Proofs.World.Observing

/-!
# Registries in directories

Planning with a registry in a directory only adds files: archives that are kept once they have been
fetched, and directories for them. What has been read is never read differently afterwards, and an
archive that has been given out has been kept, so that the supply is steady. Registries on the web,
whose answers may change, are not described.
-/

namespace SheetPackages

theorem Supply.observes_needFile (path : String) : (needFile path).Observes := by
  have hrun (w : World) : (needFile path).runIn w =
      (if w.files.isFile path = true then .ok () else .error (.archiveNotFound path), w) := by
    change ((if !w.files.isFile path then throw (.archiveNotFound path) else pure () :
      Action Unit).runIn w) = _
    cases w.files.isFile path <;> rfl
  refine ⟨fun w ↦ congrArg Prod.snd (hrun w), fun w after a hwithin ha ↦ ?_⟩
  rw [hrun w] at ha
  cases hfile : w.files.isFile path with
  | false =>
    rw [hfile] at ha
    cases ha
  | true => rw [hrun after, if_pos (hwithin.isFile hfile)]

theorem Supply.observes_located (path : String) : (located path).Observes :=
  (observes_needFile path).bind fun _ ↦ .orFault (fun _ _ _ h ↦ h.canonical) _

theorem Supply.observes_unpacked (path : String) : (unpacked path).Observes :=
  (observes_needFile path).bind fun _ ↦ (Action.Observes.read _ _).bind fun _ ↦ .except _

/-! ## Registries -/

namespace Registry

theorem observes_readIndexIn (root : String) : (readIndexIn root).Observes :=
  (Action.Observes.read _ _).bind fun _ ↦ .except _

theorem still_readBelow (root path : String) : Still (readBelow root path) := by
  refine Still.bind (.except _) fun path ↦ Action.still_files.bind fun f ↦ ?_
  split
  · exact .pure _
  · exact .pure _
  · exact .throw

/-- An archive is looked up without any change; what is found may be another one later. -/
theorem still_archive (root name version : String) :
    Still ((Registry.directory root).archive name version) := by
  refine (observes_readIndexIn root).still.ofAction.bind fun i ↦ ?_
  refine (still_readBelow root _).ofAction.bind fun found ↦ ?_
  cases found with
  | some data => exact (Still.pure _).bind (Option.forall.mpr ⟨.throw, fun _ ↦ .pure _⟩)
  | none =>
    simp only
    split
    · exact (Still.pure _).bind (Option.forall.mpr ⟨.throw, fun _ ↦ .pure _⟩)
    · exact (still_readBelow root _).ofAction.bind (Option.forall.mpr ⟨.throw, fun _ ↦ .pure _⟩)

end Registry

/-! ## Archives by way of the store -/

namespace Supply

variable {α : Type} {root : String} {store : Archive.Store} {name version : String}

theorem run_ofAction {t : Action α} {result : Except Fault α} {w after : World}
    (h : t.runIn w = (result, after)) (c : IndexCache) :
    (Cached.ofAction t).run.run (w, c) = (result, after, c) := by
  change ((t.runIn w).1, (t.runIn w).2, c) = _
  rw [h]

theorem run_stored (r : Registry) (w : World) (c : IndexCache) :
    (stored r store name version).run.run (w, c) =
      match store.kept? w.files name version with
      | some data => (.ok data, w, c)
      | none => (r.archive name version >>= fun data ↦
          Cached.ofAction (store.put name version data) >>= fun _ ↦
            pure data : Cached ByteArray).run.run (w, c) := by
  rw [stored, ExceptT.run_bind, StateT.run_bind,
    run_ofAction (Archive.Store.runIn_get? store name version w)]
  cases store.kept? w.files name version <;> rfl

/-- Giving out an archive adds files at most, and one that has been given out has been kept. -/
theorem stored_spec {before after : World × IndexCache} {result : Except Fault ByteArray}
    (hopened : store.Opened before.1.files)
    (hrun : (stored (.directory root) store name version).run.run before = (result, after)) :
    before.1.files.Within after.1.files ∧ store.Opened after.1.files ∧
      ∀ data, result = .ok data → store.kept? after.1.files name version = some data := by
  obtain ⟨w, c⟩ := before
  rw [run_stored] at hrun
  cases hkept : store.kept? w.files name version with
  | some data =>
    rw [hkept] at hrun
    cases hrun
    exact ⟨.refl _, hopened, fun _ hdata ↦ Except.ok.inj hdata ▸ hkept⟩
  | none =>
    simp only [hkept, ExceptT.run_bind, StateT.run_bind] at hrun
    have hstill := Registry.still_archive root name version (w, c)
    cases hfetched : ((Registry.directory root).archive name version).run.run (w, c) with
    | mk fetched there =>
      rw [hfetched] at hstill hrun
      cases hstill
      cases fetched with
      | error fault =>
        cases hrun
        exact ⟨.refl _, hopened, nofun⟩
      | ok data =>
        cases hput : (store.put name version data).runIn w with
        | mk put last =>
          obtain ⟨hwithin, hlast, hkeeps⟩ := Archive.Store.put_spec hopened hput
          change (ExceptT.run (Cached.ofAction (store.put name version data)) >>= _).run (w, c) =
            (result, after) at hrun
          rw [StateT.run_bind, run_ofAction hput] at hrun
          cases put with
          | error fault =>
            cases hrun
            exact ⟨hwithin, hlast, nofun⟩
          | ok path =>
            cases hrun
            refine ⟨hwithin, hlast, fun _ hdata ↦ ?_⟩
            rw [hkeeps path rfl, hkept, ← Except.ok.inj hdata]
            rfl

/-- Where the store is open, the draw adds files at most, and what it has ended with it always ends
with where no files have been taken away. -/
structure Settles (store : Archive.Store) (t : Cached α) : Prop where
  grows : ∀ s, store.Opened s.1.files →
    s.1.files.Within (t.run.run s).2.1.files ∧ store.Opened (t.run.run s).2.1.files
  again : ∀ s later a, store.Opened s.1.files → (t.run.run s).1 = .ok a →
    (t.run.run s).2.1.files.Within later.1.files → (t.run.run later).1 = .ok a

theorem settles_ofAction {t : Action α} (h : t.Observes) : Settles store (Cached.ofAction t) := by
  have hrun (s : World × IndexCache) : (Cached.ofAction t).run.run s = ((t.runIn s.1).1, s) :=
    Prod.ext rfl (h.still.ofAction s)
  constructor
  · intro s hopened
    rw [hrun s]
    exact ⟨.refl _, hopened⟩
  · intro s later a _ ha hwithin
    rw [hrun s] at ha hwithin
    rw [hrun later]
    exact h.again s.1 later.1 a hwithin ha

theorem settles_stored : Settles store (stored (.directory root) store name version) where
  grows s hopened :=
    have hspec := stored_spec hopened rfl
    ⟨hspec.1, hspec.2.1⟩
  again s later data hopened hdata hwithin := by
    obtain ⟨w, c⟩ := later
    have hkept := (stored_spec hopened rfl).2.2 data hdata
    rw [run_stored, Archive.Store.kept?_within hwithin hkept]

theorem settles_index : Settles store (ofRegistry (.directory root) store).index :=
  settles_ofAction (Registry.observes_readIndexIn root)

theorem settles_locate (path : String) :
    Settles store ((ofRegistry (.directory root) store).locate path) :=
  settles_ofAction (observes_located path)

theorem settles_file (path : String) :
    Settles store ((ofRegistry (.directory root) store).file path) :=
  settles_ofAction (observes_unpacked path)

theorem of_reached {s after : World × IndexCache} (hopened : store.Opened s.1.files)
    (h : (ofRegistry (.directory root) store).Reached s after) :
    s.1.files.Within after.1.files ∧ store.Opened after.1.files := by
  have hnext {α : Type} {t : Cached α} (hsettles : Settles store t) {between : World × IndexCache}
      (hbetween : s.1.files.Within between.1.files ∧ store.Opened between.1.files) :
      s.1.files.Within (t.run.run between).2.1.files ∧
        store.Opened (t.run.run between).2.1.files :=
    have hgrows := hsettles.grows between hbetween.2
    ⟨hbetween.1.trans hgrows.1, hgrows.2⟩
  induction h with
  | start => exact ⟨.refl _, hopened⟩
  | index _ ih => exact hnext settles_index ih
  | archive name version _ ih => exact hnext settles_stored ih
  | locate path _ ih => exact hnext (settles_locate path) ih
  | file path _ ih => exact hnext (settles_file path) ih

/-- A registry in a directory with an open store is a steady supply. -/
theorem steady_ofRegistry {start : World × IndexCache} (hopened : store.Opened start.1.files) :
    (ofRegistry (.directory root) store).Steady start := by
  have hrepeatable {α : Type} {t : Cached α} (hsettles : Settles store t)
      (hdraw : ∀ s, (ofRegistry (.directory root) store).Reached s (t.run.run s).2) :
      (ofRegistry (.directory root) store).Repeatable start t := by
    intro s hs
    have hthere := (of_reached hopened hs).2
    refine ⟨hdraw s, fun a ha later hlater ↦ ⟨hdraw later, ?_⟩⟩
    exact hsettles.again s later a hthere ha (of_reached (hsettles.grows s hthere).2 hlater).1
  constructor
  case index => exact hrepeatable settles_index fun _ ↦ Reached.start.index
  case archive =>
    exact fun name version ↦ hrepeatable settles_stored fun _ ↦ Reached.start.archive name version
  case locate =>
    exact fun path ↦ hrepeatable (settles_locate path) fun _ ↦ Reached.start.locate path
  case file =>
    exact fun path ↦ hrepeatable (settles_file path) fun _ ↦ Reached.start.file path

end Supply

end SheetPackages
