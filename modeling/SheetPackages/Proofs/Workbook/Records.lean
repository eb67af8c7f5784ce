import Mathlib.Data.List.Nodup
import SheetPackages.Proofs.Workbook.Grid
import SheetPackages.Proofs.Workbook.Lists

/-!
# Reading written records

What is read back of the project and the lockfile that a workbook keeps. Every lockfile is read, with
its packages in their order; an empty origin or integrity is not told from a missing one, and lists
of texts that are not storable are cut differently. The functions of locked packages come back when
they are listable and each one is owned once. Where the requirements are storable as well, and no
origin and no integrity is empty, the whole lockfile comes back.
-/

namespace SheetPackages.Workbook

/-! ## Lockfiles -/

/-- What is read of a locked package whose functions are listable. -/
def reread (entry : Locked) : Locked :=
  { entry with
    resolved := entry.resolved.filter (!·.isEmpty)
    integrity := entry.integrity.filter (!·.isEmpty)
    dependencies := splitList (joinList entry.dependencies) }

/-- What is read of a locked package, before functions with several owners are given to the first. -/
def relisted (entry : Locked) : Locked :=
  { reread entry with functions := splitList (joinList entry.functions) }

theorem relisted_eq_reread {entry : Locked} (h : Listable entry.functions) :
    relisted entry = reread entry := by
  rw [relisted, splitList_joinList_of_listable h]
  rfl

theorem filter_getD_empty (text : Option String) :
    (some (text.getD "")).filter (!·.isEmpty) = text.filter (!·.isEmpty) := by
  cases text <;> rfl

theorem lockedOfRow?_row (name : String) (entry : Locked) :
    lockedOfRow? [name, entry.version, entry.resolved.getD "", entry.integrity.getD "",
      joinList entry.dependencies, joinList entry.functions] = some (name, relisted entry) := by
  simp only [lockedOfRow?, filled?, listAt, List.getElem?_cons_zero, List.getElem?_cons_succ,
    List.getD_cons_zero, List.getD_cons_succ, filter_getD_empty, relisted, reread]

end SheetPackages.Workbook

namespace SheetPackages.Lockfile

theorem foldl_keepFirst {taken functions kept : List String}
    (hnodup : (kept ++ functions).Nodup) (htaken : ∀ f ∈ functions, f ∉ taken) :
    functions.foldl (fun kept f ↦ if f ∈ taken ∨ f ∈ kept then kept else kept ++ [f]) kept =
      kept ++ functions := by
  induction functions generalizing kept with
  | nil => rw [List.foldl_nil, List.append_nil]
  | cons f rest ih =>
    have hf : f ∉ kept := fun hmem ↦
      (List.nodup_append.mp hnodup).2.2 f hmem f List.mem_cons_self rfl
    have hnew : ¬(f ∈ taken ∨ f ∈ kept) := not_or.mpr ⟨htaken f List.mem_cons_self, hf⟩
    have hassoc : kept ++ f :: rest = kept ++ [f] ++ rest := by simp
    rw [List.foldl_cons, if_neg hnew, hassoc]
    exact ih (hassoc ▸ hnodup) fun g hg ↦ htaken g (List.mem_cons_of_mem _ hg)

/-- Nothing is taken away where no function is claimed twice. -/
theorem keepFirst_eq_self {taken : List String} {entries : List (String × Locked)}
    (h : (taken ++ entries.flatMap fun entry ↦ entry.2.functions).Nodup) :
    keepFirst taken entries = entries := by
  induction entries generalizing taken with
  | nil => rfl
  | cons entry rest ih =>
    obtain ⟨name, locked⟩ := entry
    rw [List.flatMap_cons, ← List.append_assoc] at h
    obtain ⟨hfirst, _, _⟩ := List.nodup_append.mp h
    obtain ⟨_, hfunctions, hdisjoint⟩ := List.nodup_append.mp hfirst
    have hkept : locked.functions.foldl
        (fun kept f ↦ if f ∈ taken ∨ f ∈ kept then kept else kept ++ [f]) [] = locked.functions :=
      foldl_keepFirst hfunctions fun f hf hmem ↦ hdisjoint f hmem f hf rfl
    rw [keepFirst, hkept, ih h]

theorem map_fst_keepFirst (taken : List String) (entries : List (String × Locked)) :
    (keepFirst taken entries).map Prod.fst = entries.map Prod.fst := by
  induction entries generalizing taken with
  | nil => rfl
  | cons entry rest ih => rw [keepFirst, List.map_cons, List.map_cons, ih]

/-- An entry keeps what is not taken. -/
theorem mem_foldl_kept_iff (taken functions kept : List String) (function : String) :
    function ∈ functions.foldl
        (fun kept f ↦ if f ∈ taken ∨ f ∈ kept then kept else kept ++ [f]) kept ↔
      function ∈ kept ∨ function ∈ functions ∧ function ∉ taken := by
  induction functions generalizing kept with
  | nil => simp
  | cons f rest ih =>
    rw [List.foldl_cons, ih]
    by_cases heq : function = f
    · subst heq
      by_cases htaken : function ∈ taken <;> by_cases hkept : function ∈ kept <;>
        simp [htaken, hkept]
    · split <;> simp [heq]

/-- What an entry keeps it keeps once. -/
theorem nodup_foldl_kept (taken functions : List String) {kept : List String}
    (hkept : kept.Nodup) : (functions.foldl
      (fun kept f ↦ if f ∈ taken ∨ f ∈ kept then kept else kept ++ [f]) kept).Nodup := by
  induction functions generalizing kept with
  | nil => exact hkept
  | cons f rest ih =>
    rw [List.foldl_cons]
    split
    · exact ih hkept
    · next hnew =>
      exact ih (hkept.append (List.nodup_singleton f) fun g hg hf ↦
        (not_or.mp hnew).2 (List.mem_singleton.mp hf ▸ hg))

/-- An entry keeps functions in their order. -/
theorem sublist_foldl_kept (taken functions kept : List String) : ∃ more, functions.foldl
      (fun kept f ↦ if f ∈ taken ∨ f ∈ kept then kept else kept ++ [f]) kept = kept ++ more ∧
    more.Sublist functions := by
  induction functions generalizing kept with
  | nil => exact ⟨[], (List.append_nil kept).symm, List.Sublist.refl []⟩
  | cons f rest ih =>
    rw [List.foldl_cons]
    split
    · obtain ⟨more, hmore, hsublist⟩ := ih kept
      exact ⟨more, hmore, hsublist.cons f⟩
    · obtain ⟨more, hmore, hsublist⟩ := ih (kept ++ [f])
      exact ⟨f :: more, hmore.trans (List.append_assoc ..), hsublist.cons_cons f⟩

/-- Of an entry nothing but functions is taken away. -/
structure Keeps (listed entry : String × Locked) : Prop where
  package_eq : entry.1 = listed.1
  locked_eq : entry.2 = { listed.2 with functions := entry.2.functions }
  sublist : entry.2.functions.Sublist listed.2.functions

theorem forall₂_keepFirst (taken : List String) (entries : List (String × Locked)) :
    List.Forall₂ Keeps entries (keepFirst taken entries) := by
  induction entries generalizing taken with
  | nil => exact .nil
  | cons listed rest ih =>
    obtain ⟨more, hmore, hsublist⟩ := sublist_foldl_kept taken listed.2.functions []
    rw [keepFirst]
    exact .cons ⟨rfl, rfl, hmore ▸ hsublist⟩ (ih _)

theorem nodup_keepFirst {taken : List String} (htaken : taken.Nodup)
    (entries : List (String × Locked)) :
    (taken ++ (keepFirst taken entries).flatMap fun entry ↦ entry.2.functions).Nodup := by
  induction entries generalizing taken with
  | nil => simpa [keepFirst] using htaken
  | cons entry rest ih =>
    rw [keepFirst, List.flatMap_cons, ← List.append_assoc]
    refine ih (htaken.append (nodup_foldl_kept _ _ List.nodup_nil) fun f hf hnew ↦ ?_)
    exact (((mem_foldl_kept_iff ..).mp hnew).resolve_left List.not_mem_nil).2 hf

theorem entries_exclusive (l : Lockfile) :
    l.exclusive.packages.entries = keepFirst [] l.packages.entries := by
  rw [exclusive, OrderedMap.entries_ofList]
  rw [map_fst_keepFirst]
  exact l.packages.nodup

theorem nodup_ownedFunctions_exclusive (l : Lockfile) : l.exclusive.ownedFunctions.Nodup := by
  rw [ownedFunctions, entries_exclusive]
  exact nodup_keepFirst List.nodup_nil l.packages.entries

theorem exclusive_eq_self {l : Lockfile} (h : l.ownedFunctions.Nodup) : l.exclusive = l := by
  rw [exclusive, keepFirst_eq_self h, OrderedMap.ofList_entries]

end SheetPackages.Lockfile

namespace SheetPackages.Workbook

/-- The lockfile with every package as it is read. -/
def rereadAll (l : Lockfile) : Lockfile :=
  ⟨l.packages.map fun _ entry ↦ reread entry⟩

theorem entries_rereadAll (l : Lockfile) : (rereadAll l).packages.entries =
    l.packages.entries.map fun entry ↦ (entry.1, reread entry.2) :=
  rfl

@[simp]
theorem ownedFunctions_rereadAll (l : Lockfile) :
    (rereadAll l).ownedFunctions = l.ownedFunctions := by
  rw [Lockfile.ownedFunctions, entries_rereadAll, List.flatMap_map]
  rfl

/-- In whatever lockfile is read, a function is owned once. -/
theorem nodup_of_decodeLockfile? {definition : String} {l : Lockfile}
    (h : decodeLockfile? definition = some l) : l.ownedFunctions.Nodup := by
  rw [decodeLockfile?] at h
  cases hgrid : Grid.parse definition with
  | nil =>
    rw [hgrid] at h
    cases h
  | cons header rows =>
    rw [hgrid] at h
    cases h
    exact Lockfile.nodup_ownedFunctions_exclusive _

/-- A written lockfile is read with the same packages, whatever their texts are. -/
theorem decodeLockfile?_eq_exclusive (l : Lockfile) :
    decodeLockfile? (encodeLockfile l).definition =
      some (Lockfile.mk (l.packages.map fun _ entry ↦ relisted entry)).exclusive := by
  have hrows : ∀ row ∈ lockGrid l, row ≠ [] := by
    refine List.forall_mem_cons.mpr ⟨List.cons_ne_nil _ _, fun row hrow ↦ ?_⟩
    obtain ⟨entry, _, rfl⟩ := List.mem_map.mp hrow
    exact List.cons_ne_nil _ _
  have hread : ((lockGrid l).tail).filterMap lockedOfRow? =
      (l.packages.map fun _ entry ↦ relisted entry).entries := by
    rw [lockGrid, List.tail_cons, List.filterMap_map, OrderedMap.entries_map,
      ← List.filterMap_eq_map]
    exact List.filterMap_congr fun entry _ ↦ lockedOfRow?_row entry.1 entry.2
  rw [lockGrid, List.tail_cons] at hread
  rw [decodeLockfile?, encodeLockfile, Grid.parse_text hrows, lockGrid, lockfileOfGrid?, hread,
    OrderedMap.ofList_entries]

theorem decodeLockfile?_of_listable {l : Lockfile}
    (hlistable : ∀ entry ∈ l.packages.values, Listable entry.functions)
    (hnodup : l.ownedFunctions.Nodup) :
    decodeLockfile? (encodeLockfile l).definition = some (rereadAll l) := by
  have hsame : Lockfile.mk (l.packages.map fun _ entry ↦ relisted entry) = rereadAll l :=
    congrArg Lockfile.mk
      (OrderedMap.map_congr fun entry hentry ↦ relisted_eq_reread (hlistable entry hentry))
  rw [decodeLockfile?_eq_exclusive, hsame]
  exact congrArg some (Lockfile.exclusive_eq_self (by rwa [ownedFunctions_rereadAll]))

theorem listable_functions {l : Lockfile} (hstorable : ∀ f ∈ l.ownedFunctions, Storable f) :
    ∀ entry ∈ l.packages.values, Listable entry.functions := by
  intro entry hentry
  obtain ⟨keyed, hkeyed, rfl⟩ := List.mem_map.mp hentry
  exact listable_of_storable fun f hf ↦ hstorable f (List.mem_flatMap.mpr ⟨keyed, hkeyed, hf⟩)

/-- A written lockfile is read with the same packages and the same functions of each. -/
theorem decodeLockfile?_encodeLockfile {l : Lockfile}
    (hstorable : ∀ f ∈ l.ownedFunctions, Storable f) (hnodup : l.ownedFunctions.Nodup) :
    decodeLockfile? (encodeLockfile l).definition = some (rereadAll l) :=
  decodeLockfile?_of_listable (listable_functions hstorable) hnodup

theorem filter_not_isEmpty {text : Option String} (h : text ≠ some "") :
    text.filter (!·.isEmpty) = text := by
  cases text with
  | none => rfl
  | some s =>
    have hne : s ≠ "" := fun heq ↦ h (congrArg some heq)
    simpa using hne

theorem reread_eq_self {entry : Locked} (hdependencies : ∀ text ∈ entry.dependencies, Storable text)
    (hresolved : entry.resolved ≠ some "") (hintegrity : entry.integrity ≠ some "") :
    reread entry = entry := by
  rw [reread, splitList_joinList hdependencies, filter_not_isEmpty hresolved,
    filter_not_isEmpty hintegrity]

/-- A lockfile of storable texts, in which every function is owned once, is read as it was, whatever
the names, versions, origins and integrities of its packages are. -/
theorem lockfile_persists {l : Lockfile} (hfunctions : ∀ f ∈ l.ownedFunctions, Storable f)
    (hdependencies : ∀ entry ∈ l.packages.values, ∀ text ∈ entry.dependencies, Storable text)
    (horigins : ∀ entry ∈ l.packages.values,
      entry.resolved ≠ some "" ∧ entry.integrity ≠ some "")
    (hnodup : l.ownedFunctions.Nodup) :
    decodeLockfile? (encodeLockfile l).definition = some l := by
  have hsame : rereadAll l = l := by
    apply congrArg Lockfile.mk
    apply OrderedMap.map_eq_self
    intro entry hentry
    obtain ⟨hresolved, hintegrity⟩ := horigins entry hentry
    exact reread_eq_self (hdependencies entry hentry) hresolved hintegrity
  rw [decodeLockfile?_encodeLockfile hfunctions hnodup, hsame]

/-- A lockfile with marks of cells, rows and literals in all the texts that may have them. -/
def markedLock : Lockfile where
  packages := .ofList
    [("a\",\"b;\x7d", {
        version := "1\n\"\"2"
        resolved := some "=\x7b\"x\";"
        functions := ["MEAN", "F,(x)"] }),
      ("", {
        version := "\x7d"
        integrity := some "\""
        dependencies := ["core>=1.0,<2", "text"] })]

theorem lockfile_persists_marked :
    (∀ f ∈ markedLock.ownedFunctions, Storable f) ∧ markedLock.ownedFunctions.Nodup ∧
      decodeLockfile? (encodeLockfile markedLock).definition = some markedLock := by
  have hfunctions : ∀ f ∈ markedLock.ownedFunctions, Storable f := by decide
  have hnodup : markedLock.ownedFunctions.Nodup := by decide
  exact ⟨hfunctions, hnodup, lockfile_persists hfunctions (by decide) (by decide) hnodup⟩

/-! ## Projects -/

theorem jsonBody?_text (g : Grid) : jsonBody? (Text.trim g.text.toList) = none := by
  rw [Grid.text, String.toList_ofList, Grid.trim_literal]
  rfl

/-- A written project without further keys is read as it was, if its requirements are storable. -/
theorem decodeProject?_encodeProject {p : Project} (hextra : p.extra = .empty)
    (hstorable : ∀ text ∈ p.dependencies, Storable text) :
    decodeProject? (encodeProject p).definition = some p := by
  obtain ⟨name, version, description, dependencies, extra⟩ := p
  subst hextra
  have hrows : ∀ row ∈ projectGrid ⟨name, version, description, dependencies, .empty⟩,
      row ≠ [] := by
    simp [projectGrid, projectHeader, OrderedMap.empty]
  rw [decodeProject?, encodeProject, jsonBody?_text, Option.bind_none, Option.none_or,
    Grid.parse_text hrows]
  simp only [projectGrid, OrderedMap.empty, List.map_nil, List.append_nil, projectOfGrid?,
    List.foldl_cons, List.foldl_nil, enterRow, enterKey, splitList_joinList hstorable]

end SheetPackages.Workbook
