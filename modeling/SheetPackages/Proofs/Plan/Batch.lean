import Mathlib.Data.List.Nodup
import SheetPackages.Proofs.Plan.Names

/-!
# What a batch installs

The lockfile and the functions of the plan for a batch: every function of the lockfile is owned
once, the plan has exactly these functions under their own names, and what the workbook owned before
is either owned again or obsolete. The bodies of the functions are not described here.
-/

namespace SheetPackages

open Workbook (Storable)

theorem OrderedMap.get?_of_isEmpty {α : Type} {m : OrderedMap α} (h : m.isEmpty = true)
    (name : String) : m.get? name = none := by
  have hentries : m.entries = [] := List.isEmpty_iff.mp h
  rw [OrderedMap.get?, hentries, List.lookup_nil]

theorem Lockfile.map_fst_claims (l : Lockfile) : l.claims.map Prod.fst = l.ownedFunctions := by
  rw [claims, List.map_flatMap, ownedFunctions]
  apply List.flatMap_congr
  intro entry _
  rw [List.map_map]
  exact List.map_id entry.2.functions

theorem Lockfile.contains_owners_iff {l : Lockfile} {function : String} :
    l.owners.contains function = true ↔ function ∈ l.ownedFunctions := by
  rw [owners, OrderedMap.ofList, OrderedMap.contains_insertAll, map_fst_claims]
  exact or_iff_right Bool.false_ne_true

theorem Lockfile.mem_claims_of_owner {l : Lockfile} {function package : String}
    (h : l.owners.get? function = some package) : (function, package) ∈ l.claims := by
  rcases OrderedMap.get?_insertAll h with hnone | hclaim
  · cases hnone
  · exact hclaim

theorem Lockfile.mem_ownedFunctions_of_owner {l : Lockfile} {function package : String}
    (h : l.owners.get? function = some package) : function ∈ l.ownedFunctions := by
  rw [← map_fst_claims]
  exact List.mem_map_of_mem (mem_claims_of_owner h)

/-- The functions of the package can be put into the workbook under the names that they have now. -/
structure Unpacked.Installable (s : Workbook.State) (u : Unpacked) : Prop where
  keyed : Keyed u.functions
  names : ∀ name, u.functions.contains name = true →
    Storable name ∧ Function.isReserved name = false
  permitted : ∀ name, u.functions.contains name = true → s.functions.contains name = true →
    name ∈ s.lockfile.ownedFunctions

namespace Batch

/-! ## Final functions -/

theorem name_withAliases (renames : RenameMaps) (u : Unpacked) :
    (withAliases renames u).name = u.name := by
  rw [withAliases]
  split <;> rfl

theorem contains_withAliases (renames : RenameMaps) (u : Unpacked) (name : String) :
    (withAliases renames u).functions.contains name = u.functions.contains name := by
  rw [withAliases]
  split
  · rfl
  · rw [OrderedMap.contains, OrderedMap.get?_map, Option.isSome_map, OrderedMap.contains]

/-- Without aliases a function keeps the name that it had, and otherwise it is given its alias. -/
theorem keyed_withAliases {renames : RenameMaps} {u v : Unpacked} (hv : Keyed v.functions)
    (hname : u.name = v.name)
    (hfunctions : u.functions = (aliased (Alias.mapOf renames v.name) v.functions).1) :
    Keyed (withAliases renames u).functions := by
  intro name f hf
  rw [withAliases, hname] at hf
  by_cases hempty : (Alias.mapOf renames v.name).isEmpty = true
  · rw [if_pos hempty, hfunctions] at hf
    obtain ⟨old, hold, hnew⟩ := get?_aliased hf
    rw [OrderedMap.get?_of_isEmpty hempty, Option.getD_none] at hnew
    rw [hnew]
    exact hv old f hold
  · rw [if_neg hempty, OrderedMap.get?_map] at hf
    obtain ⟨g, _, rfl⟩ := Option.map_eq_some_iff.mp hf
    rfl

/-- A final name is the name of a function of an archive, or an alias. -/
theorem names_aliased {renames : RenameMaps} (hrenames : ValidAliases renames) {v : Unpacked}
    (hv : v.Orderly) {name : String}
    (h : (aliased (Alias.mapOf renames v.name) v.functions).1.contains name = true) :
    Storable name ∧ Function.isReserved name = false := by
  obtain ⟨f, hf⟩ := Option.isSome_iff_exists.mp h
  obtain ⟨old, hold, hnew⟩ := get?_aliased hf
  cases halias : (Alias.mapOf renames v.name).get? old with
  | none =>
    rw [halias, Option.getD_none] at hnew
    rw [hnew]
    exact (hv old f hold).2
  | some new =>
    rw [halias, Option.getD_some] at hnew
    have hvalid := hrenames.mapOf halias
    rw [hnew]
    exact ⟨Alias.storable_of_isValid hvalid, (Alias.isNameChar_of_isValid hvalid).2.2⟩

theorem installable_withAliases {s : Workbook.State} {renames : RenameMaps}
    (hrenames : ValidAliases renames) {batch : List Unpacked} (hbatch : ∀ u ∈ batch, u.Orderly)
    {u : Unpacked} (hu : Named s s.lockfile.owners renames batch u) :
    (withAliases renames u).Installable s := by
  obtain ⟨v, hv, hname, hfunctions⟩ := hu.origin
  refine ⟨keyed_withAliases (hbatch v hv).keyed hname hfunctions, fun name h ↦ ?_,
    fun name h hthere ↦ ?_⟩
  · rw [contains_withAliases, hfunctions] at h
    exact names_aliased hrenames (hbatch v hv) h
  · rw [contains_withAliases] at h
    exact Lockfile.mem_ownedFunctions_of_owner (hu.permitted name h hthere)

/-- The final batch: packages of different names, without common functions, all installable. -/
structure Final (s : Workbook.State) (batch : List Unpacked) : Prop where
  names : (batch.map Unpacked.name).Nodup
  apart : Apart batch
  installable : ∀ u ∈ batch, u.Installable s

theorem map_name_withAliases (renames : RenameMaps) (batch : List Unpacked) :
    (batch.map (withAliases renames)).map Unpacked.name = batch.map Unpacked.name := by
  rw [List.map_map]
  exact List.map_congr_left fun u _ ↦ name_withAliases renames u

theorem map_name_of_check {s : Workbook.State} {renames : RenameMaps}
    {batch checked : List Unpacked} (h : check s renames batch = .ok checked) :
    (checked.map (withAliases renames)).map Unpacked.name = batch.map Unpacked.name := by
  rw [map_name_withAliases, (checked_spec h).1]

theorem Apart.withAliases {batch : List Unpacked} (h : Apart batch) (renames : RenameMaps) :
    Apart (batch.map (withAliases renames)) := by
  simp only [Apart, List.forall_mem_map, name_withAliases, Disjoint, contains_withAliases]
  exact h

theorem final_of_check {s : Workbook.State} {renames : RenameMaps}
    (hrenames : ValidAliases renames) {batch checked : List Unpacked}
    (hnodup : (batch.map Unpacked.name).Nodup) (hbatch : ∀ u ∈ batch, u.Orderly)
    (h : check s renames batch = .ok checked) : Final s (checked.map (withAliases renames)) := by
  constructor
  · rw [map_name_of_check h]
    exact hnodup
  · exact (checked_apart h).1.withAliases renames
  · intro w hw
    obtain ⟨u, hu, rfl⟩ := List.mem_map.mp hw
    exact installable_withAliases hrenames hbatch ((checked_spec h).2 u hu)

/-! ## The lockfile -/

theorem lockfile_eq_ofList (batch : List Unpacked) :
    (lockfile batch).packages = .ofList (batch.map fun u ↦ (u.name, u.locked)) := by
  have hfold (l : Lockfile) : (batch.foldl (fun l u ↦ l.insert u.name u.locked) l).packages =
      l.packages.insertAll (batch.map fun u ↦ (u.name, u.locked)) := by
    induction batch generalizing l with
    | nil => rfl
    | cons u rest ih => exact ih (l.insert u.name u.locked)
  exact hfold {}

variable {s : Workbook.State} {batch : List Unpacked}

/-- Packages of different names are locked in their order. -/
theorem entries_lockfile (h : (batch.map Unpacked.name).Nodup) :
    (lockfile batch).packages.entries = batch.map fun u ↦ (u.name, u.locked) := by
  rw [lockfile_eq_ofList]
  apply OrderedMap.entries_ofList
  rw [List.map_map]
  exact h

theorem ownedFunctions_lockfile (h : (batch.map Unpacked.name).Nodup) :
    (lockfile batch).ownedFunctions = batch.flatMap fun u ↦ u.functions.keys := by
  rw [Lockfile.ownedFunctions, entries_lockfile h, List.flatMap_map]
  rfl

theorem mem_ownedFunctions_lockfile (h : (batch.map Unpacked.name).Nodup) {name : String} :
    name ∈ (lockfile batch).ownedFunctions ↔ ∃ u ∈ batch, u.functions.contains name = true := by
  rw [ownedFunctions_lockfile h, List.mem_flatMap]
  simp only [OrderedMap.mem_keys_iff_contains]

/-- The lockfile has the packages of the batch; of several with one name, the last one. -/
theorem exists_of_mem_lockfile {entry : String × Locked}
    (h : entry ∈ (lockfile batch).packages.entries) : ∃ u ∈ batch, (u.name, u.locked) = entry := by
  rw [lockfile_eq_ofList] at h
  rcases OrderedMap.get?_insertAll (OrderedMap.get?_eq_some_iff.mpr h) with hnone | hmem
  · cases hnone
  · exact List.mem_map.mp hmem

theorem get?_lockfile (h : (batch.map Unpacked.name).Nodup) {u : Unpacked} (hu : u ∈ batch) :
    (lockfile batch).get? u.name = some u.locked := by
  rw [Lockfile.get?, OrderedMap.get?_eq_some_iff, entries_lockfile h]
  exact List.mem_map_of_mem hu

theorem contains_lockfile {name : String} :
    (lockfile batch).contains name = true ↔ name ∈ batch.map Unpacked.name := by
  rw [Lockfile.contains, lockfile_eq_ofList, OrderedMap.ofList, OrderedMap.contains_insertAll,
    List.map_map]
  exact or_iff_right Bool.false_ne_true

theorem locked_withAliases (renames : RenameMaps) (u : Unpacked) :
    (withAliases renames u).locked = u.locked := by
  rw [withAliases]
  split
  · rfl
  · simp only [Unpacked.locked, OrderedMap.keys, OrderedMap.entries_map, List.map_map]
    rfl

/-- What is locked for a package of a checked batch is what it was unpacked with, apart from the
names of its functions. -/
theorem exists_locked_of_check {renames : RenameMaps} {checked : List Unpacked}
    (hnames : (batch.map Unpacked.name).Nodup) (h : check s renames batch = .ok checked)
    {u : Unpacked} (hu : u ∈ batch) : ∃ functions,
      (lockfile (checked.map (withAliases renames))).get? u.name =
        some { u.locked with functions } := by
  have hnodup := hnames
  rw [← map_name_of_check h] at hnodup
  have hlocked := get?_lockfile hnodup (List.mem_map_of_mem (mem_of_checked h hu))
  rw [name_withAliases, locked_withAliases] at hlocked
  exact ⟨_, hlocked⟩

/-- What is locked after a check was unpacked, and owns the functions of it under their final
names. -/
theorem exists_unpacked_of_check {renames : RenameMaps} {checked : List Unpacked}
    (h : check s renames batch = .ok checked) {name : String} {entry : Locked}
    (hentry : (lockfile (checked.map (withAliases renames))).get? name = some entry) :
    ∃ u ∈ batch, u.name = name ∧ entry = { u.locked with
      functions := (aliased (Alias.mapOf renames u.name) u.functions).1.keys } := by
  obtain ⟨w, hw, hlocked⟩ := exists_of_mem_lockfile (OrderedMap.get?_eq_some_iff.mp hentry)
  obtain ⟨v, hv, rfl⟩ := List.mem_map.mp hw
  rw [eq_map_of_checked h] at hv
  obtain ⟨u, hu, rfl⟩ := List.mem_map.mp hv
  rw [name_withAliases, locked_withAliases] at hlocked
  obtain ⟨rfl, rfl⟩ := Prod.mk.inj hlocked
  exact ⟨u, hu, rfl, rfl⟩

/-- What is selected once is locked as it was unpacked, apart from the names of its functions. -/
theorem exists_locked_of_selected {fetched : String → String → Archive → Prop}
    {renames : RenameMaps} {selection : List Selected} {checked : List Unpacked}
    (hunpacks : List.Forall₂ (Unpacks fetched) selection batch)
    (hchecks : check s renames batch = .ok checked) {selected : Selected}
    (hselected : selected ∈ selection)
    (honly : ∀ other ∈ selection, other.name = selected.name → other = selected) :
    ∃ u functions, Unpacks fetched selected u ∧
      (lockfile (checked.map (withAliases renames))).get? selected.name =
        some { u.locked with functions } := by
  have hcontains : (lockfile (checked.map (withAliases renames))).contains selected.name = true := by
    rw [contains_lockfile, map_name_of_check hchecks, Unpacks.map_name hunpacks]
    exact List.mem_map_of_mem hselected
  obtain ⟨entry, hentry⟩ := Option.isSome_iff_exists.mp hcontains
  obtain ⟨u, hu, hname, rfl⟩ := exists_unpacked_of_check hchecks hentry
  obtain ⟨other, hother, hunpacked⟩ := exists_of_mem_right hunpacks hu
  cases honly other hother (hunpacked.name_eq.symm.trans hname)
  exact ⟨u, _, hunpacked, hentry⟩

/-- No function is owned twice: within a package the keys differ, and packages that are apart have no
function in common. -/
theorem nodup_ownedFunctions_lockfile (h : Apart batch) :
    (lockfile batch).ownedFunctions.Nodup := by
  rw [Lockfile.ownedFunctions, List.nodup_flatMap]
  constructor
  · intro entry hentry
    obtain ⟨u, _, rfl⟩ := exists_of_mem_lockfile hentry
    exact u.functions.nodup
  · have hnodup := (lockfile batch).packages.nodup
    rw [List.Nodup, List.pairwise_map] at hnodup
    apply hnodup.imp_of_mem
    intro first second hfirst hsecond hne name hu hv
    obtain ⟨u, hmemu, rfl⟩ := exists_of_mem_lockfile hfirst
    obtain ⟨v, hmemv, rfl⟩ := exists_of_mem_lockfile hsecond
    have hnone := h u hmemu v hmemv hne name (OrderedMap.mem_keys_iff_contains.mp hu)
    rw [OrderedMap.mem_keys_iff_contains.mp hv] at hnone
    cases hnone

/-! ## The functions -/

theorem contains_functions {name : String} :
    (functions batch).contains name = true ↔ ∃ u ∈ batch, u.functions.contains name = true := by
  have hfold (all : FunctionMap) :
      (batch.foldl (fun all u ↦ all.insertAll u.functions.entries) all).contains name = true ↔
        all.contains name = true ∨ ∃ u ∈ batch, u.functions.contains name = true := by
    induction batch generalizing all with
    | nil => simp
    | cons u rest ih =>
      rw [List.foldl_cons, ih, OrderedMap.contains_insertAll, List.exists_mem_cons_iff, or_assoc]
      exact or_congr_right (or_congr_left OrderedMap.mem_keys_iff_contains)
  rw [functions, hfold]
  exact or_iff_right Bool.false_ne_true

/-- What the lockfile of a batch owns is among its functions. -/
theorem contains_functions_of_owned {name : String}
    (h : name ∈ (lockfile batch).ownedFunctions) : (functions batch).contains name = true := by
  obtain ⟨entry, hentry, hname⟩ := List.mem_flatMap.mp h
  obtain ⟨u, hu, rfl⟩ := exists_of_mem_lockfile hentry
  exact contains_functions.mpr ⟨u, hu, OrderedMap.mem_keys_iff_contains.mp hname⟩

/-- A function of a batch is a function of one of its packages. -/
theorem exists_of_get?_functions {name : String} {f : Function}
    (h : (functions batch).get? name = some f) : ∃ u ∈ batch, u.functions.get? name = some f := by
  have hfold (all : FunctionMap)
      (hget : (batch.foldl (fun all u ↦ all.insertAll u.functions.entries) all).get? name =
        some f) :
      all.get? name = some f ∨ ∃ u ∈ batch, u.functions.get? name = some f := by
    clear h
    induction batch generalizing all with
    | nil => exact .inl hget
    | cons u rest ih =>
      rcases ih (all.insertAll u.functions.entries) hget with hold | ⟨v, hv, hf⟩
      · exact (OrderedMap.get?_insertAll hold).imp_right fun hmem ↦
          ⟨u, List.mem_cons_self, OrderedMap.get?_eq_some_iff.mpr hmem⟩
      · exact .inr ⟨v, List.mem_cons_of_mem u hv, hf⟩
  exact (hfold .empty h).resolve_left nofun

/-- A function of a package is that function of the batch, when packages of other names have no
function in common with it and no other package has its name. -/
theorem get?_functions (hapart : Apart batch) {u : Unpacked} (hu : u ∈ batch)
    (honly : ∀ v ∈ batch, v.name = u.name → v = u) {name : String} {f : Function}
    (hf : u.functions.get? name = some f) : (functions batch).get? name = some f := by
  have hthere : u.functions.contains name = true := Option.isSome_of_mem hf
  obtain ⟨g, hg⟩ := Option.isSome_iff_exists.mp (contains_functions.mpr ⟨u, hu, hthere⟩)
  obtain ⟨v, hv, hvg⟩ := exists_of_get?_functions hg
  have hname : v.name = u.name := by
    by_contra hne
    have hnone := hapart u hu v hv (Ne.symm hne) name hthere
    rw [OrderedMap.contains, hvg] at hnone
    cases hnone
  rw [honly v hv hname, hf] at hvg
  exact hg.trans hvg.symm

theorem keyed_functions (h : ∀ u ∈ batch, Keyed u.functions) : Keyed (functions batch) := by
  have hfold (all : FunctionMap) (hall : Keyed all) :
      Keyed (batch.foldl (fun all u ↦ all.insertAll u.functions.entries) all) := by
    induction batch generalizing all with
    | nil => exact hall
    | cons u rest ih =>
      obtain ⟨hu, hrest⟩ := List.forall_mem_cons.mp h
      apply ih hrest
      intro name f hf
      rcases OrderedMap.get?_insertAll hf with hold | hnew
      · exact hall name f hold
      · exact hu name f (OrderedMap.get?_eq_some_iff.mpr hnew)
  exact hfold .empty fun _ _ hf ↦ nomatch hf

theorem mem_distinct {texts : List String} {t : String} : t ∈ distinct texts ↔ t ∈ texts := by
  have hfold (seen : List String) :
      t ∈ texts.foldl (fun seen t ↦ if t ∈ seen then seen else seen ++ [t]) seen ↔
        t ∈ seen ∨ t ∈ texts := by
    induction texts generalizing seen with
    | nil => simp
    | cons first rest ih =>
      rw [List.foldl_cons, ih]
      split
      · next hseen =>
        rw [List.mem_cons]
        constructor
        · exact Or.imp_right .inr
        · rintro (hmem | rfl | hmem)
          · exact .inl hmem
          · exact .inl hseen
          · exact .inr hmem
      · rw [List.mem_append, List.mem_singleton, List.mem_cons, or_assoc]
  rw [distinct, hfold]
  exact or_iff_right List.not_mem_nil

theorem mem_ownedFunctions_iff_contains (h : (batch.map Unpacked.name).Nodup) {name : String} :
    name ∈ (lockfile batch).ownedFunctions ↔ (functions batch).contains name = true :=
  (mem_ownedFunctions_lockfile h).trans contains_functions.symm

/-! ## The plan -/

/-- What packages owned is obsolete unless the batch has it. -/
theorem mem_obsolete_plan {p : Project} {name : String} : name ∈ (plan s p batch).obsolete ↔
    name ∈ s.lockfile.ownedFunctions ∧ (functions batch).contains name = false := by
  rw [plan, mem_distinct, List.mem_filter, Bool.not_eq_true']

section

variable {σ : Type} {supply : Supply (StateM σ)} {start : σ}

/-- A plan for a selection is made of the packages unpacked from it, once their functions have got
their final names. -/
theorem leads_planOf {s : Workbook.State} {fetched : σ → String → String → Archive → Prop}
    (h : Fetching supply start s.lockfile fetched) (p : Project) (selection : List Selected)
    (renames : RenameMaps) {now : σ} (hnow : supply.Reached start now) :
    supply.Leads now (planOf supply s p selection renames) fun after made ↦
      ∃ batch checked, List.Forall₂ (Unpacks (fetched after)) selection batch ∧
        check s renames batch = .ok checked ∧
        made = plan s p (checked.map (withAliases renames)) := by
  refine (leads_ofSelection h selection hnow).bind fun after batch _ hbatch ↦ ?_
  exact .except_bind fun checked hchecked ↦ .pure ⟨batch, checked, hbatch, hchecked, rfl⟩

theorem planOf_spec (s : Workbook.State) (p : Project) (selection : List Selected)
    (renames : RenameMaps) :
    supply.Ensures start (planOf supply s p selection renames) fun made ↦
      ∃ batch checked, List.Forall₂ (Unpacks (Fetches supply start s.lockfile)) selection batch ∧
        check s renames batch = .ok checked ∧
        made = plan s p (checked.map (withAliases renames)) :=
  fun _ hs ↦ leads_planOf (fetching_fetches s.lockfile) p selection renames hs

end

/-- Functions of a batch that get their final names stand under these. -/
theorem keyed_plan {p : Project} {renames : RenameMaps} {batch checked : List Unpacked}
    (hkeyed : ∀ u ∈ batch, Keyed u.functions) (h : check s renames batch = .ok checked) :
    Keyed (plan s p (checked.map (withAliases renames))).functions := by
  refine keyed_functions (List.forall_mem_map.mpr fun u hu ↦ ?_)
  obtain ⟨v, hv, hname, hfunctions⟩ := ((checked_spec h).2 u hu).origin
  exact keyed_withAliases (hkeyed v hv) hname hfunctions

end Batch

end SheetPackages
