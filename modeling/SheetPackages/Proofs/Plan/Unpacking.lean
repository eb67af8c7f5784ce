import Mathlib.Data.List.Forall2
import SheetPackages.Plan.Batch
import SheetPackages.Proofs.Plan.Selection

/-!
# Unpacked archives

What is known of the packages of a batch once their archives have been read: each one belongs to a
package of the selection, in order, and its functions stand under their own names, none of them
reserved. Where an archive came from and what it contains is not described.
-/

namespace SheetPackages

open Workbook (Storable)

variable {σ : Type} {supply : Supply (StateM σ)} {start : σ}

/-! ## Functions of archives -/

/-- Every function stands under its own name. -/
def Keyed (functions : FunctionMap) : Prop :=
  ∀ name f, functions.get? name = some f → f.name = name

theorem Archive.readEntry_eq_ok {α : Type} {read : Json.Document → Option α} {content : ByteArray}
    {label name : String} {a : α} (h : readEntry read content label name = .ok a) :
    ∃ doc, read doc = some a := by
  unfold readEntry at h
  cases hdoc : (Json.Document.ofBytes content).bind read with
  | none =>
    rw [hdoc] at h
    cases h
  | some b =>
    rw [hdoc] at h
    cases h
    obtain ⟨doc, _, hread⟩ := Option.bind_eq_some_iff.mp hdoc
    exact ⟨doc, hread⟩

theorem Archive.requiredEntry_eq_ok {α : Type} {read : Json.Document → Option α} {data : ByteArray}
    {zip : Zip} {label name : String} {a : α}
    (h : requiredEntry read data zip label name = .ok a) : ∃ doc, read doc = some a := by
  obtain ⟨content, _, h⟩ := exists_of_bind_eq_ok h
  cases content with
  | none => cases h
  | some content => exact readEntry_eq_ok h

theorem keyed_map_renamed (functions : FunctionMap) :
    Keyed (functions.map fun name f ↦ f.renamed name) := by
  intro name f hf
  rw [OrderedMap.get?_map] at hf
  obtain ⟨body, _, rfl⟩ := Option.map_eq_some_iff.mp hf
  rfl

theorem Archive.keyed_functionsOf? {doc : Json.Document} {functions : FunctionMap}
    (h : functionsOf? doc = some functions) : Keyed functions := by
  unfold functionsOf? at h
  cases hbodies : doc.mapOf? bodyOf? with
  | none =>
    rw [hbodies] at h
    cases h
  | some bodies =>
    rw [hbodies] at h
    cases h
    exact keyed_map_renamed bodies

/-- What is read from bytes: the functions of some document, and the integrity of the bytes. -/
theorem Archive.of_ofBytes {data : ByteArray} {label : String} {a : Archive}
    (h : ofBytes data label = .ok a) :
    (∃ doc, functionsOf? doc = some a.functions) ∧ a.integrity = Digest.integrity data := by
  unfold ofBytes at h
  cases hzip : Zip.ofBytes? data with
  | none =>
    rw [hzip] at h
    cases h
  | some zip =>
    rw [hzip] at h
    obtain ⟨project, _, h⟩ := exists_of_bind_eq_ok h
    obtain ⟨functions, hfunctions, h⟩ := exists_of_bind_eq_ok h
    obtain ⟨lock, _, h⟩ := exists_of_bind_eq_ok h
    cases lock with
    | none =>
      cases h
      exact ⟨requiredEntry_eq_ok hfunctions, rfl⟩
    | some content =>
      obtain ⟨lockfile, _, h⟩ := exists_of_bind_eq_ok h
      cases h
      exact ⟨requiredEntry_eq_ok hfunctions, rfl⟩

/-- The functions that are read from the bytes of an archive stand under their own names. -/
theorem Archive.keyed_ofBytes {data : ByteArray} {label : String} {a : Archive}
    (h : ofBytes data label = .ok a) : Keyed a.functions := by
  obtain ⟨⟨doc, hdoc⟩, _⟩ := of_ofBytes h
  exact keyed_functionsOf? hdoc

/-- What comes out of a supply: functions under their own names, which list cells can keep. Of
archives that are read from bytes, the first is not demanded. -/
structure Supply.Orderly (supply : Supply (StateM σ)) (start : σ) : Prop where
  keyed : ∀ path a, supply.Yields start (supply.file path) a → Keyed a.functions
  files : ∀ path a, supply.Yields start (supply.file path) a →
    ∀ name ∈ a.functions.keys, Storable name
  archives : ∀ name version data label a, supply.Yields start (supply.archive name version) data →
    Archive.ofBytes data label = .ok a → ∀ function ∈ a.functions.keys, Storable function

/-- What a program has of its registry and its files are functions under their own names. -/
theorem Supply.keyed_ofRegistry {r : Registry} {store : Archive.Store}
    {start : World × IndexCache} {path : String} {a : Archive}
    (h : (ofRegistry r store).Yields start ((ofRegistry r store).file path) a) :
    Keyed a.functions := by
  obtain ⟨⟨w, c⟩, _, h⟩ := h
  have hrun : ((unpacked path).run.run w).1 = .ok a := h
  obtain ⟨_, w, _, hrun⟩ := exists_of_run_bind hrun
  obtain ⟨data, w, _, hrun⟩ := exists_of_run_bind hrun
  exact Archive.keyed_ofBytes hrun

/-- What a supply has in files are functions under their own names. -/
def Supply.Keyed (supply : Supply (StateM σ)) (start : σ) : Prop :=
  ∀ path a, supply.Yields start (supply.file path) a → SheetPackages.Keyed a.functions

/-- The functions of a package can be installed under their own names. -/
def Unpacked.Orderly (u : Unpacked) : Prop :=
  ∀ name f, u.functions.get? name = some f →
    f.name = name ∧ Storable name ∧ Function.isReserved name = false

theorem Unpacked.Orderly.keyed {u : Unpacked} (h : u.Orderly) : Keyed u.functions :=
  fun name f hf ↦ (h name f hf).1

theorem Unpacked.keyed_ofArchive {name version resolved : String} {a : Archive}
    (h : Keyed a.functions) : Keyed (ofArchive name version resolved a).functions := by
  intro function f hf
  rw [ofArchive, OrderedMap.get?_filter, Option.filter_eq_some_iff] at hf
  exact h function f hf.1

theorem Unpacked.orderly_ofArchive {name version resolved : String} {a : Archive}
    (hkeyed : Keyed a.functions) (hstorable : ∀ name ∈ a.functions.keys, Storable name) :
    (ofArchive name version resolved a).Orderly := by
  intro function f hf
  rw [ofArchive, OrderedMap.get?_filter, Option.filter_eq_some_iff] at hf
  obtain ⟨hget, hreserved⟩ := hf
  refine ⟨hkeyed function f hget, hstorable function (OrderedMap.mem_keys_of_get? hget), ?_⟩
  rwa [Bool.not_eq_true'] at hreserved

/-! ## Fetching -/

theorem Digest.eq_of_verify {package expected : String} {data : ByteArray}
    (h : verify package data expected = .ok ()) : integrity data = expected := by
  unfold verify at h
  split at h
  · assumption
  · cases h

namespace Batch

theorem leads_fetch {s : σ} {name version : String} {P : σ → ByteArray → Prop}
    (harchive : supply.Leads s (supply.archive name version) P) (expected : Option String) :
    supply.Leads s (fetch supply name version expected) fun after a ↦
      ∃ data, P after data ∧ Archive.ofBytes data s!"{name}-{version}.gspkg" = .ok a ∧
        ∀ integrity ∈ expected, Digest.integrity data = integrity := by
  refine harchive.bind fun after data _ hdata ↦ ?_
  cases expected with
  | none => exact .except fun a ha ↦ ⟨data, hdata, ha, nofun⟩
  | some integrity =>
    refine .except_bind fun _ hverified ↦ .except fun a ha ↦ ⟨data, hdata, ha, ?_⟩
    rintro _ ⟨rfl⟩
    exact Digest.eq_of_verify hverified

theorem fetch_spec (name version : String) (expected : Option String) :
    supply.Ensures start (fetch supply name version expected) fun a ↦
      ∃ data label, supply.Yields start (supply.archive name version) data ∧
        Archive.ofBytes data label = .ok a :=
  fun s hs ↦ (leads_fetch (Supply.ensures_archive name version s hs) expected).imp
    fun _ _ _ ⟨data, hdata, hread, _⟩ ↦ ⟨data, _, hdata, hread⟩

/-- What a selected package is when it is unpacked, given what is fetched for versions from the
registry. -/
inductive Unpacks (fetched : String → String → Archive → Prop) : Selected → Unpacked → Prop
  | file (name path : String) (a : Archive) : Unpacks fetched ⟨name, .file path a⟩
      (.ofArchive name Locked.localVersion (Locked.fileOrigin path) a)
  | registry {name version : String} {a : Archive} (h : fetched name version a) :
      Unpacks fetched ⟨name, .registry version⟩
        (.ofArchive name version (Locked.registryOrigin name version) a)

theorem Unpacks.name_eq {fetched : String → String → Archive → Prop} {selected : Selected}
    {u : Unpacked} (h : Unpacks fetched selected u) : u.name = selected.name := by
  cases h <;> rfl

theorem Unpacks.map_name {fetched : String → String → Archive → Prop} {selection : List Selected}
    {batch : List Unpacked} (h : List.Forall₂ (Unpacks fetched) selection batch) :
    batch.map Unpacked.name = selection.map Selected.name := by
  induction h with
  | nil => rfl
  | cons hselected _ ih => rw [List.map_cons, List.map_cons, hselected.name_eq, ih]

theorem Unpacks.imp {fetched kept : String → String → Archive → Prop}
    (h : ∀ name version a, fetched name version a → kept name version a) {selected : Selected}
    {u : Unpacked} (hu : Unpacks fetched selected u) : Unpacks kept selected u := by
  cases hu with
  | file name path a => exact .file name path a
  | @registry name version a hfetched => exact .registry (h name version a hfetched)

/-- Wherever a version is fetched against a lockfile, its archive has been fetched afterwards, and
it has been so ever after. -/
structure Fetching (supply : Supply (StateM σ)) (start : σ) (l : Lockfile)
    (fetched : σ → String → String → Archive → Prop) : Prop where
  leads : ∀ s, supply.Reached start s → ∀ name version,
    supply.Leads s (fetch supply name version (lockedIntegrity? l name version))
      (fetched · name version)
  lasts : ∀ name version a, supply.Lasts (fetched · name version a)

/-- The slots before the position have been filled, the others hold what was at hand: the rest of
the selection is unpacked into them. -/
theorem leads_fetchAll {l : Lockfile} {fetched : σ → String → String → Archive → Prop}
    (h : Fetching supply start l fetched) (rest : List Selected) (slots : List (Option Unpacked))
    {s : σ} (hs : supply.Reached start s) :
    supply.Leads s (fetchAll supply l slots.length rest) fun after completions ↦ ∀ batch,
      collect (slots ++ rest.map atHand?) completions = .ok batch →
        ∃ more, List.Forall₂ (Unpacks (fetched after)) rest more ∧
          batch = slots.filterMap id ++ more := by
  induction rest generalizing slots s with
  | nil =>
    refine .pure fun batch hbatch ↦ ⟨[], .nil, ?_⟩
    cases hbatch
    rw [List.map_nil, List.append_nil, List.append_nil]
  | cons selected rest ih =>
    -- With something in the next slot, what follows goes on from there.
    have hnext (slot : Option Unpacked) {s : σ} (hs : supply.Reached start s) :
        supply.Leads s (fetchAll supply l (slots.length + 1) rest) fun after completions ↦
          ∀ batch, collect (slots ++ slot :: rest.map atHand?) completions = .ok batch →
            ∃ more, List.Forall₂ (Unpacks (fetched after)) rest more ∧
              batch = slots.filterMap id ++ slot.toList ++ more := by
      have hslot : (slots ++ [slot]).filterMap id = slots.filterMap id ++ slot.toList := by
        rw [List.filterMap_append]
        cases slot <;> rfl
      have hrest := ih (slots ++ [slot]) hs
      rw [List.length_append, List.length_singleton, hslot] at hrest
      simpa only [List.append_assoc, List.singleton_append] using hrest
    obtain ⟨name, origin⟩ := selected
    cases origin with
    | file path a =>
      have hfile := hnext (atHand? ⟨name, .file path a⟩) hs
      refine hfile.imp fun after completions _ hcollect batch hbatch ↦ ?_
      obtain ⟨more, hmore, rfl⟩ := hcollect batch hbatch
      refine ⟨_ :: more, .cons (.file name path a) hmore, ?_⟩
      rw [List.append_assoc]
      rfl
    | registry version =>
      refine (h.leads s hs name version).caught.bind fun between result hbetween hresult ↦ ?_
      have hreached := hs.trans hbetween
      cases result with
      | error fault =>
        refine (hnext none hreached).bind fun _ others _ _ ↦ .pure fun batch hbatch ↦ ?_
        cases hbatch
      | ok a =>
        refine (hnext (some (.ofArchive name version (Locked.registryOrigin name version) a))
          hreached).bind fun after others hafter hcollect ↦ .pure fun batch hbatch ↦ ?_
        change collect ((slots ++ none :: rest.map atHand?).set slots.length (some _)) others =
          .ok batch at hbatch
        rw [List.set_append_right _ _ (Nat.le_refl _), Nat.sub_self, List.set_cons_zero] at hbatch
        obtain ⟨more, hmore, rfl⟩ := hcollect batch hbatch
        have hfetched := h.lasts name version a between after hafter (hresult a rfl)
        refine ⟨_ :: more, .cons (.registry hfetched) hmore, ?_⟩
        rw [List.append_assoc]
        rfl

theorem leads_ofSelection {l : Lockfile} {fetched : σ → String → String → Archive → Prop}
    (h : Fetching supply start l fetched) (selection : List Selected) {s : σ}
    (hs : supply.Reached start s) :
    supply.Leads s (ofSelection supply l selection)
      fun after ↦ List.Forall₂ (Unpacks (fetched after)) selection := by
  refine (leads_fetchAll h selection [] hs).bind fun after completions _ hcollect ↦ ?_
  refine .except fun batch hbatch ↦ ?_
  obtain ⟨more, hmore, rfl⟩ := hcollect batch hbatch
  exact hmore

/-- What is fetched for a version when the integrity is expected that a lockfile has for it. -/
def Fetches (supply : Supply (StateM σ)) (start : σ) (l : Lockfile) (name version : String)
    (a : Archive) : Prop :=
  supply.Yields start (fetch supply name version (lockedIntegrity? l name version)) a

theorem fetching_fetches (l : Lockfile) :
    Fetching supply start l fun _ ↦ Fetches supply start l where
  leads s hs name version := (fetch_spec name version _).yields s hs
  lasts _ _ _ _ _ _ h := h

/-! ## Unpacked packages -/

/-- What is unpacked comes from an archive of a file, or from one that was read from bytes. -/
theorem Unpacks.exists_archive {l : Lockfile} {selected : Selected} {u : Unpacked}
    (h : Unpacks (Fetches supply start l) selected u)
    (hselected : Selected.Supplied supply start selected) :
    ∃ version resolved a, u = .ofArchive selected.name version resolved a ∧
      ((∃ path, supply.Yields start (supply.file path) a) ∨
        ∃ name version data label, supply.Yields start (supply.archive name version) data ∧
          Archive.ofBytes data label = .ok a) := by
  cases h with
  | file name path a => exact ⟨_, _, a, rfl, .inl ⟨path, hselected path a rfl⟩⟩
  | @registry name version a hfetched =>
    obtain ⟨data, label, hdata, hread⟩ := (fetch_spec name version _).of_yields hfetched
    exact ⟨_, _, a, rfl, .inr ⟨name, version, data, label, hdata, hread⟩⟩

theorem Unpacks.keyed (hsupply : supply.Keyed start) {l : Lockfile} {selected : Selected}
    {u : Unpacked} (h : Unpacks (Fetches supply start l) selected u)
    (hselected : Selected.Supplied supply start selected) : SheetPackages.Keyed u.functions := by
  obtain ⟨version, resolved, a, rfl, ⟨path, hfile⟩ | ⟨name, version, data, label, -, hread⟩⟩ :=
    h.exists_archive hselected
  · exact Unpacked.keyed_ofArchive (hsupply path a hfile)
  · exact Unpacked.keyed_ofArchive (Archive.keyed_ofBytes hread)

theorem Unpacks.orderly (hsupply : supply.Orderly start) {l : Lockfile} {selected : Selected}
    {u : Unpacked} (h : Unpacks (Fetches supply start l) selected u)
    (hselected : Selected.Supplied supply start selected) : u.Orderly := by
  obtain ⟨version, resolved, a, rfl, ⟨path, hfile⟩ | ⟨name, version, data, label, hdata, hread⟩⟩ :=
    h.exists_archive hselected
  · exact Unpacked.orderly_ofArchive (hsupply.keyed path a hfile) (hsupply.files path a hfile)
  · exact Unpacked.orderly_ofArchive (Archive.keyed_ofBytes hread)
      (hsupply.archives name version data label a hdata hread)

/-- What holds of each package unpacked from a selection holds of the whole batch. -/
theorem forall_of_unpacks {fetched : String → String → Archive → Prop} {P : Unpacked → Prop}
    {selection : List Selected} {batch : List Unpacked}
    (h : List.Forall₂ (Unpacks fetched) selection batch)
    (hP : ∀ selected ∈ selection, ∀ u, Unpacks fetched selected u → P u) : ∀ u ∈ batch, P u := by
  intro u hu
  obtain ⟨selected, hselected, hunpacks⟩ := exists_of_mem_right h hu
  exact hP selected hselected u hunpacks

end Batch

end SheetPackages
