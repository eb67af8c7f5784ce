import SheetPackages.Proofs.Arrival
import SheetPackages.Proofs.Plan.Coverage

/-!
# What a checked-out project publishes

A workbook publishes the functions that are not reserved and that its lockfile, as it is read,
claims for no package. After a checkout these are the ones that it published before, as they were
and in their order, and behind them the sources of the archive; nothing that the checkout installs
is among them. What happens to functions that packages owned before is not described here.
-/

namespace SheetPackages

open Workbook (Change State Storable)

/-! ## Published functions -/

/-- Whether a workbook with the lockfile publishes functions of the name. -/
def Lockfile.publishes (l : Lockfile) (name : String) : Bool :=
  !Function.isReserved name && !l.owners.contains name

theorem Lockfile.publishes_iff {l : Lockfile} {name : String} :
    l.publishes name = true ↔ Function.isReserved name = false ∧ name ∉ l.ownedFunctions := by
  rw [publishes, Bool.and_eq_true, Bool.not_eq_true', Bool.not_eq_true', ← contains_owners_iff,
    Bool.not_eq_true]

theorem Lockfile.publishes_congr {l read : Lockfile}
    (h : read.ownedFunctions = l.ownedFunctions) : read.publishes = l.publishes := by
  funext name
  rw [Bool.eq_iff_iff, publishes_iff, publishes_iff, h]

theorem Lockfile.not_publishes_of_isReserved (l : Lockfile) {name : String}
    (h : Function.isReserved name = true) : l.publishes name = false := by
  rw [publishes, h, Bool.not_true, Bool.false_and]

/-- The functions that a workbook with the lockfile publishes. -/
def Lockfile.published (l : Lockfile) (functions : FunctionMap) : FunctionMap :=
  functions.filter fun name _ ↦ l.publishes name

theorem Workbook.State.ownFunctions_eq_published (s : State) :
    s.ownFunctions = s.lockfile.published s.functions :=
  rfl

/-- A project and a lockfile that are written are not published. -/
theorem Plan.published_changes (l : Lockfile) (s : State) (p : Plan) :
    l.published (Change.applyAll s.functions (p.changes s)) = l.published (written s p) := by
  have hproject : l.publishes Function.projectName = false :=
    l.not_publishes_of_isReserved (by decide)
  have hlock : l.publishes Function.lockName = false := l.not_publishes_of_isReserved (by decide)
  rw [applyAll_changes, Lockfile.published, OrderedMap.filter_insert,
    if_neg (ne_true_of_eq_false hlock), OrderedMap.filter_insert,
    if_neg (ne_true_of_eq_false hproject), Lockfile.published]

/-! ## Plans with sources -/

namespace Plan

/-- The plan provides exactly what packages are to own, replaces nothing but what they own already,
and gives up the rest of that. -/
structure Exchanges (s : State) (p : Plan) : Prop where
  keyed : Keyed p.functions
  exclusive : p.lockfile.ownedFunctions.Nodup
  owned : ∀ name, name ∈ p.lockfile.ownedFunctions ↔ p.functions.contains name = true
  permitted : ∀ name, p.functions.contains name = true → s.functions.contains name = true →
    name ∈ s.lockfile.ownedFunctions
  obsolete : ∀ name, name ∈ p.obsolete ↔
    name ∈ s.lockfile.ownedFunctions ∧ p.functions.contains name = false

variable {s : State} {p : Plan} {sources : FunctionMap}

/-- The sources are created behind whatever else is written. -/
theorem writings_withSources (h : p.Admits s sources) : writings s (p.withSources sources) =
    writings s p ++ sources.entries.map fun entry ↦ .create entry.2 := by
  have hcreate (entry : String × Function) (hentry : entry ∈ sources.entries) :
      writing? s entry.1 entry.2 = some (.create entry.2) := by
    have habsent := h.absent entry.1 (OrderedMap.contains_of_mem hentry)
    rw [writing?, OrderedMap.contains_eq_false_iff.mp habsent]
  rw [writings, withSources, OrderedMap.entries_insertAll_of_disjoint h.unplanned,
    List.filterMap_append, writings]
  congr 1
  rw [← List.filterMap_eq_map]
  exact List.filterMap_congr hcreate

/-- What packages own in the workbook they own again, or it is deleted. -/
theorem Exchanges.owned_or_deleted (hp : p.Exchanges s) (h : p.Admits s sources) {name : String}
    (hthere : s.functions.contains name = true) : name ∈ s.lockfile.ownedFunctions ↔
      name ∈ p.lockfile.ownedFunctions ∨ name ∈ (p.withSources sources).deleted := by
  have hprovided : (p.withSources sources).functions.contains name = p.functions.contains name := by
    rw [Bool.eq_iff_iff, contains_withSources]
    refine or_iff_left fun hsource ↦ ?_
    rw [h.absent name hsource] at hthere
    cases hthere
  have hobsolete : name ∈ (p.withSources sources).obsolete ↔
      name ∈ s.lockfile.ownedFunctions ∧ p.functions.contains name = false := hp.obsolete name
  rw [mem_deleted, hprovided, hobsolete, hp.owned]
  cases hnew : p.functions.contains name with
  | true => exact iff_of_true (hp.permitted name hnew hthere) (.inl rfl)
  | false => simp

/-- Of the functions in the workbook, those are published afterwards that were published before. -/
theorem Exchanges.publishes_and_kept (hp : p.Exchanges s) (h : p.Admits s sources) {name : String}
    (hthere : s.functions.contains name = true) :
    (p.lockfile.publishes name && decide (name ∉ (p.withSources sources).deleted)) =
      s.lockfile.publishes name := by
  rw [Bool.eq_iff_iff, Bool.and_eq_true, Lockfile.publishes_iff, Lockfile.publishes_iff,
    decide_eq_true_iff, hp.owned_or_deleted h hthere, not_or, and_assoc]

/-- What a plan without its sources writes is not published afterwards. -/
theorem Exchanges.not_publishes_of_writing (hp : p.Exchanges s) {c : Change}
    (hc : c ∈ writings s p) : p.lockfile.publishes c.name = false := by
  rw [← Bool.not_eq_true, Lockfile.publishes_iff, hp.owned]
  exact fun hpublished ↦ hpublished.2 (contains_of_mem_writings hp.keyed hc)

theorem Exchanges.publishes_of_source (hp : p.Exchanges s) (h : p.Admits s sources)
    {name : String} (hname : sources.contains name = true) : p.lockfile.publishes name = true := by
  rw [Lockfile.publishes_iff, hp.owned, h.unplanned name hname]
  exact ⟨h.unreserved name hname, Bool.false_ne_true⟩

/-- The lockfile that is read afterwards publishes what the planned one does. -/
theorem Exchanges.publishes_read (hp : p.Exchanges s)
    (hstorable : ∀ name ∈ p.lockfile.ownedFunctions, Storable name) :
    (State.ofFunctions (Change.applyAll s.functions
      ((p.withSources sources).changes s))).lockfile.publishes = p.lockfile.publishes := by
  have hread := decodeLockfile?_planned s (p.withSources sources)
  have hwritten : Workbook.decodeLockfile? (Workbook.encodeLockfile p.lockfile).definition =
      some (Workbook.rereadAll p.lockfile) :=
    Workbook.decodeLockfile?_encodeLockfile hstorable hp.exclusive
  apply Lockfile.publishes_congr
  rw [← Option.some.inj (hwritten.symm.trans hread), Workbook.ownedFunctions_rereadAll]

/-- Where the functions that a plan with sources gives up have been deleted, what is published is
what was so before. -/
theorem Exchanges.published_deleted (hp : p.Exchanges s) (h : p.Admits s sources) :
    p.lockfile.published
        (Change.applyAll s.functions ((p.withSources sources).deleted.map .delete)) =
      s.ownFunctions := by
  rw [Change.applyAll_delete]
  apply OrderedMap.ext
  refine List.filter_filter.trans (List.filter_congr fun entry hentry ↦ ?_)
  exact hp.publishes_and_kept h (OrderedMap.contains_of_mem hentry)

/-- After the changes of a plan with sources, a workbook publishes what it did, and the sources. -/
theorem Exchanges.published_written (hp : p.Exchanges s) (h : p.Admits s sources) :
    p.lockfile.published (written s (p.withSources sources)) =
      s.ownFunctions.insertAll sources.entries := by
  have hsources : ∀ entry ∈ sources.entries, p.lockfile.publishes entry.1 = true :=
    fun entry hentry ↦ hp.publishes_of_source h (OrderedMap.contains_of_mem hentry)
  have hwritings : ∀ c ∈ writings s p, p.lockfile.publishes c.name = false :=
    fun c hc ↦ hp.not_publishes_of_writing hc
  rw [written, writings_withSources h, Change.applyAll_append,
    Change.applyAll_create fun entry hentry ↦ h.name_eq hentry, Lockfile.published,
    OrderedMap.filter_insertAll hsources, Change.filter_applyAll hwritings]
  exact congrArg (OrderedMap.insertAll · sources.entries) (hp.published_deleted h)

/-- After the changes of a plan with sources, a workbook publishes what it did before, and behind
that the sources. -/
theorem Exchanges.entries_ownFunctions (hp : p.Exchanges s) (h : p.Admits s sources)
    (hstorable : ∀ name ∈ p.lockfile.ownedFunctions, Storable name) :
    (State.ofFunctions (Change.applyAll s.functions
        ((p.withSources sources).changes s))).ownFunctions.entries =
      s.ownFunctions.entries ++ sources.entries := by
  have hown : (State.ofFunctions (Change.applyAll s.functions
      ((p.withSources sources).changes s))).ownFunctions =
        p.lockfile.published (Change.applyAll s.functions ((p.withSources sources).changes s)) := by
    rw [State.ownFunctions_eq_published, Lockfile.published, hp.publishes_read hstorable]
    rfl
  rw [hown, published_changes, hp.published_written h]
  apply OrderedMap.entries_insertAll_of_disjoint
  intro name hname
  have habsent := OrderedMap.contains_eq_false_iff.mp (h.absent name hname)
  rw [OrderedMap.contains_eq_false_iff, State.ownFunctions_eq_published, Lockfile.published,
    OrderedMap.get?_filter, habsent, Option.filter_none]

end Plan

/-! ## Batches -/

variable {σ : Type} {supply : Supply (StateM σ)} {start : σ} {s : State}

theorem Batch.exchanges_plan {p : Project} {renames : RenameMaps} {batch checked : List Unpacked}
    (hnames : (batch.map Unpacked.name).Nodup) (hkeyed : ∀ u ∈ batch, Keyed u.functions)
    (h : check s renames batch = .ok checked) :
    (plan s p (checked.map (withAliases renames))).Exchanges s where
  keyed := keyed_plan hkeyed h
  exclusive := nodup_ownedFunctions_lockfile ((checked_apart h).1.withAliases renames)
  owned name := by
    rw [← map_name_of_check h] at hnames
    exact mem_ownedFunctions_iff_contains hnames
  permitted name hname hthere := by
    obtain ⟨w, hw, hnew⟩ := contains_functions.mp hname
    obtain ⟨u, hu, rfl⟩ := List.mem_map.mp hw
    rw [contains_withAliases] at hnew
    have howner := ((checked_spec h).2 u hu).permitted name hnew hthere
    exact Lockfile.mem_ownedFunctions_of_owner howner
  obsolete _ := mem_obsolete_plan

/-- A plan for packages of different names owns what it provides. -/
theorem Batch.exchanges_planOf (hsupply : supply.Keyed start) (p : Project)
    {selection : List Selected} (hnames : (selection.map Selected.name).Nodup)
    (hselection : ∀ selected ∈ selection, Selected.Supplied supply start selected)
    (renames : RenameMaps) :
    supply.Ensures start (planOf supply s p selection renames) (·.Exchanges s) := by
  refine (planOf_spec s p selection renames).imp fun made h ↦ ?_
  obtain ⟨batch, checked, hbatch, hchecked, rfl⟩ := h
  refine exchanges_plan ?_ ?_ hchecked
  · rw [Unpacks.map_name hbatch]
    exact hnames
  · exact forall_of_unpacks hbatch fun selected hmem _ hunpacked ↦
      hunpacked.keyed hsupply (hselection selected hmem)

/-! ## Checkouts -/

namespace Checkout

/-- After a checkout the workbook publishes what it published before, as it was, and behind that the
sources of the archive. Whatever else the checkout writes belongs to the packages that it installs,
and is not published. The project's requirements are to be on different packages, the installed
functions are to have names that list cells keep, such as those without commas, and functions of
archive files are to stand under their own names, as all do that are read. -/
theorem ownFunctions_of_make (hsupply : supply.Keyed start) {limit : Nat} {package : String}
    {requested : Option String} {c : Checkout}
    (h : ((make supply limit s package requested).run.run start).1 = .ok c)
    (hnames : ∀ ds, c.plan.project.requirements = .ok ds → (ds.map Dependency.name).Nodup)
    (hstorable : ∀ name ∈ c.plan.lockfile.ownedFunctions, Storable name) :
    ∃ a, ((fetched supply package requested).run.run start).1 = .ok (c.version, a) ∧
      c.plan.project = a.project ∧ c.sources = (sourcesOf a).keys ∧
      (∀ name, c.plan.functions.contains name = true ↔
        name ∈ c.plan.lockfile.ownedFunctions ∨ (sourcesOf a).contains name = true) ∧
      let own := (State.ofFunctions
        (Change.applyAll s.functions (c.plan.changes s))).ownFunctions
      own.entries = s.ownFunctions.entries ++ (sourcesOf a).entries ∧
        ∀ name ∈ c.plan.lockfile.ownedFunctions, own.get? name = none := by
  obtain ⟨a, installing, hfetched, hopens⟩ := (make_spec limit s package requested).2 c h
  obtain ⟨selection, hselection, hinstalling⟩ := hopens.planned
  obtain ⟨ds, hds, hdistinct, hsupplied⟩ :=
    (Selected.ofProject_spec limit a.project []).of_yields hselection
  have hproject : c.plan.project = a.project := by
    rw [hopens.plan_eq]
    exact hopens.project
  have hexchanges : installing.Exchanges s :=
    (Batch.exchanges_planOf hsupply a.project (hdistinct (hnames ds (hproject ▸ hds))) hsupplied
      .empty).of_yields hinstalling
  rw [hopens.plan_eq] at hstorable ⊢
  refine ⟨a, hfetched, hopens.project, hopens.sources, fun name ↦ ?_, ?_, fun name hname ↦ ?_⟩
  · exact Plan.contains_withSources.trans (or_congr_left (hexchanges.owned name).symm)
  · exact hexchanges.entries_ownFunctions hopens.admits hstorable
  · rw [State.ownFunctions_eq_published, Lockfile.published,
      hexchanges.publishes_read hstorable, OrderedMap.get?_filter, Option.filter_eq_none_iff]
    intro f _ hpublished
    exact (Lockfile.publishes_iff.mp hpublished).2 hname

end Checkout

/-! ## An opened package -/

open Archive.Zip in
/-- The container of some files with their texts, which are not compressed. -/
def uncompressed (files : List (String × String)) : ByteArray :=
  let pack (name text : String) : PackedFile := ⟨name.toUTF8.toList, text.toUTF8,
    ⟨(1 :: bytesOf text.utf8ByteSize 2 ++ bytesOf (65535 - text.utf8ByteSize) 2).toArray⟩ ++
      text.toUTF8⟩
  let (entries, directory) := parts 0 (files.map fun (name, text) ↦ pack name text)
  ⟨(entries ++ directory ++ bytesOf endMark 4 ++ bytesOf 0 4 ++ bytesOf files.length 2 ++
    bytesOf files.length 2 ++ bytesOf directory.length 4 ++ bytesOf entries.length 4 ++
    bytesOf 0 2).toArray⟩

/-- The archive of a package with a function, which requires another package. -/
def mainArchive : ByteArray :=
  uncompressed [(Archive.projectEntry, "\x7b\"dependencies\":[\"base\"]\x7d"),
    (Archive.functionsEntry, "\x7b\"MAIN\":\x7b\"definition\":\"=1\"\x7d\x7d")]

/-- The archive of the package that is required. -/
def baseArchive : ByteArray :=
  uncompressed [(Archive.projectEntry, "\x7b\x7d"),
    (Archive.functionsEntry, "\x7b\"BASE\":\x7b\"definition\":\"=2\"\x7d\x7d")]

/-- A registry of the two packages, and no files. -/
def openShelf : Supply (StateM Unit) :=
  { shelf with archive := fun name _ ↦ pure (if name = "app" then mainArchive else baseArchive) }

/-- A workbook without project, with a function of its own and one that a package owns. -/
def unclaimed : State where
  lockfile := ⟨.ofList [("old", { version := "1.0.0", functions := ["GONE"] })]⟩
  functions := .ofList [("MINE", { name := "MINE", definition := "=3" }),
    ("GONE", { name := "GONE", definition := "=4" })]

theorem keyed_openShelf : openShelf.Keyed () := by
  rintro path a ⟨_, _, h⟩
  cases h

/-- The function of the package is published behind the one that was there; neither the required
one nor the one of the old package is. -/
theorem Checkout.ownFunctions_of_make_openShelf : ∃ c : Checkout,
    ((make openShelf 100 unclaimed "app" none).run.run ()).1 = .ok c ∧
      c.plan.lockfile.ownedFunctions = ["BASE"] ∧
      (State.ofFunctions
        (Change.applyAll unclaimed.functions (c.plan.changes unclaimed))).ownFunctions.keys =
          ["MINE", "MAIN"] := by
  have hmake : ((make openShelf 100 unclaimed "app" none).run.run ()).1.toOption.map (fun c ↦
      (c.plan.project.dependencies, c.plan.lockfile.ownedFunctions, c.sources)) =
      some (["base"], ["BASE"], ["MAIN"]) := by
    simp only [make, Selected.ofProject, Selected.resolved, Resolution.resolve_eq_resolveWithin]
    decide +kernel
  obtain ⟨c, hc, hread⟩ := exists_of_map_toOption hmake
  simp only [Prod.mk.injEq] at hread
  obtain ⟨hdependencies, howned, hsources⟩ := hread
  have hnames (ds : List Dependency) (hds : c.plan.project.requirements = .ok ds) :
      (ds.map Dependency.name).Nodup := by
    have hrequirements : c.plan.project.requirements = .ok [⟨"base", ""⟩] := by
      rw [Project.requirements, hdependencies]
      rfl
    cases hrequirements.symm.trans hds
    decide
  have hstorable : ∀ name ∈ c.plan.lockfile.ownedFunctions, Storable name := by
    rw [howned]
    decide
  obtain ⟨a, _, _, hkeys, _, hentries, _⟩ :=
    ownFunctions_of_make keyed_openShelf hc hnames hstorable
  refine ⟨c, hc, howned, ?_⟩
  calc
    _ = unclaimed.ownFunctions.keys ++ (sourcesOf a).keys := by
      rw [OrderedMap.keys, hentries, List.map_append]
      rfl
    _ = ["MINE"] ++ ["MAIN"] := by
      rw [← hkeys, hsources]
      rfl

end SheetPackages
