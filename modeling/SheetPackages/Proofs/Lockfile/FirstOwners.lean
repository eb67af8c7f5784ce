import SheetPackages.Proofs.Ownership

/-!
# First owners

Nothing keeps a cell that holds a lockfile from being edited. Its rows may list a function for
several packages, or more than once for the same; when they are read, each function stays with the
first package that lists it, and nothing else about a package changes. Of several rows for a package
the last one counts, at the place of the first, so what only an earlier one lists is not listed.
-/

namespace SheetPackages

namespace Lockfile

variable {l : Lockfile} {function : String}

/-- The package of the first entry that lists the function. -/
def firstOwner? (entries : List (String × Locked)) (function : String) : Option String :=
  (entries.find? fun entry ↦ function ∈ entry.2.functions).map Prod.fst

/-! ## Entries -/

/-- A function that is not taken stays with the first entry that lists it. -/
theorem firstOwner?_keepFirst (taken : List String) (entries : List (String × Locked))
    (function : String) : firstOwner? (keepFirst taken entries) function =
      if function ∈ taken then none else firstOwner? entries function := by
  induction entries generalizing taken with
  | nil => simp [keepFirst, firstOwner?]
  | cons listed rest ih =>
    have hkept := mem_foldl_kept_iff taken listed.2.functions [] function
    simp only [List.not_mem_nil, false_or] at hkept
    have hrest := ih (taken ++ listed.2.functions.foldl
      (fun kept f ↦ if f ∈ taken ∨ f ∈ kept then kept else kept ++ [f]) [])
    simp only [firstOwner?, keepFirst, List.find?_cons, List.mem_append, hkept] at hrest ⊢
    by_cases htaken : function ∈ taken
    · simpa [htaken] using hrest
    · by_cases hlisted : function ∈ listed.2.functions
      · simp [htaken, hlisted]
      · simpa [htaken, hlisted] using hrest

/-! ## Owners -/

theorem owner?_eq_firstOwner? (hnodup : l.ownedFunctions.Nodup) (function : String) :
    l.owner? function = firstOwner? l.packages.entries function := by
  rw [firstOwner?]
  cases hfind : l.packages.entries.find? fun entry ↦ function ∈ entry.2.functions with
  | some entry =>
    have hentry := List.mem_of_find?_eq_some hfind
    have hlists := List.find?_some hfind
    refine (owner?_eq_some_iff hnodup).mpr (mem_claims_iff.mpr ⟨entry.2, ?_, ?_⟩)
    · exact OrderedMap.get?_eq_some_iff.mpr hentry
    · exact of_decide_eq_true hlists
  | none =>
    refine Option.eq_none_iff_forall_not_mem.mpr fun package howner ↦ ?_
    obtain ⟨entry, hentry, hf⟩ := mem_claims_iff.mp ((owner?_eq_some_iff hnodup).mp howner)
    have hnone := List.find?_eq_none.mp hfind _ (OrderedMap.get?_eq_some_iff.mp hentry)
    exact hnone (decide_eq_true hf)

theorem mem_ownedFunctions_iff : function ∈ l.ownedFunctions ↔
    (firstOwner? l.packages.entries function).isSome = true := by
  simp [firstOwner?, ownedFunctions]

theorem sharedFunctions_eq_nil (hnodup : l.ownedFunctions.Nodup) : l.sharedFunctions = [] := by
  have hnone : (OrderedMap.ofList (l.ownedFunctions.map (·, ()))).keys.filter
      (fun f ↦ l.ownedFunctions.count f > 1) = [] := by
    refine List.filter_eq_nil_iff.mpr fun f _ ↦ ?_
    simpa using List.nodup_iff_count_le_one.mp hnodup f
  rw [sharedFunctions, hnone, List.mergeSort_nil]

/-- A lockfile without shared functions, in which what another one lists is with its first owner. -/
structure Apportions (listed l : Lockfile) : Prop where
  nodup : l.ownedFunctions.Nodup
  sharedFunctions_eq : l.sharedFunctions = []
  entries : List.Forall₂ Keeps listed.packages.entries l.packages.entries
  owned : ∀ function, function ∈ l.ownedFunctions ↔ function ∈ listed.ownedFunctions
  owner : ∀ function, l.owner? function = firstOwner? listed.packages.entries function
  functions : ∀ package entry, l.get? package = some entry → ∀ function,
    function ∈ entry.functions ↔ firstOwner? listed.packages.entries function = some package

theorem apportions_exclusive (listed : Lockfile) : listed.Apportions listed.exclusive := by
  have hnodup := nodup_ownedFunctions_exclusive listed
  have howner (function : String) : listed.exclusive.owner? function =
      firstOwner? listed.packages.entries function := by
    rw [owner?_eq_firstOwner? hnodup, entries_exclusive, firstOwner?_keepFirst,
      if_neg List.not_mem_nil]
  refine ⟨hnodup, sharedFunctions_eq_nil hnodup, ?_, fun function ↦ ?_, howner,
    fun package entry hentry function ↦ ?_⟩
  · rw [entries_exclusive]
    exact forall₂_keepFirst [] listed.packages.entries
  · rw [mem_ownedFunctions_iff, mem_ownedFunctions_iff, ← howner, owner?_eq_firstOwner? hnodup]
  · rw [← howner, owner?_eq_some_iff hnodup, mem_claims_iff]
    constructor
    · exact fun hf ↦ ⟨entry, hentry, hf⟩
    · rintro ⟨other, hother, hf⟩
      cases hentry.symm.trans hother
      exact hf

end Lockfile

namespace Workbook

/-- The packages as rows list them. -/
def listed (rows : List (List String)) : Lockfile :=
  ⟨.ofList (rows.filterMap lockedOfRow?)⟩

/-- A lockfile is read from exactly the texts with rows. Each function that they list for some
package belongs to the first of these packages there, and to no other one. -/
theorem apportions_of_decodeLockfile? (definition : String) :
    (decodeLockfile? definition = none ↔ Grid.parse definition = []) ∧
      ∀ l, decodeLockfile? definition = some l → ∃ header rows,
        Grid.parse definition = header :: rows ∧ (listed rows).Apportions l := by
  rw [decodeLockfile?]
  cases Grid.parse definition with
  | nil => exact ⟨iff_of_true rfl rfl, fun l hl ↦ absurd hl.symm (Option.some_ne_none l)⟩
  | cons header rows =>
    refine ⟨iff_of_false (Option.some_ne_none _) (List.cons_ne_nil header rows),
      fun l hl ↦ ⟨header, rows, rfl, ?_⟩⟩
    have hl : (listed rows).exclusive = l := Option.some_inj.mp hl
    subst hl
    exact Lockfile.apportions_exclusive (listed rows)

/-- A cell with two rows for one package, with a function in rows of two packages and with one that
a row repeats. -/
def editedLock : String :=
  "=\x7b\"Package\",\"Version\",\"Resolved\",\"Integrity\",\"Dependencies\",\"Functions\";" ++
    "\"base\",\"1.0.0\",\"\",\"\",\"\",\"F,G\";\"more\",\"1.0.0\",\"\",\"\",\"\",\"H,G,F,H\";" ++
    "\"base\",\"2.0.0\",\"\",\"\",\"\",\"G\"\x7d"

/-- The function that only the replaced row lists for the first package goes to the second. -/
theorem apportions_editedLock : ∃ header rows l,
    Grid.parse editedLock = header :: rows ∧ decodeLockfile? editedLock = some l ∧
      (listed rows).Apportions l ∧ l.owner? "G" = some "base" ∧ l.owner? "F" = some "more" ∧
      l.ownedFunctions = ["G", "H", "F"] := by
  have hread : decodeLockfile? editedLock = some ⟨.ofList
      [("base", { version := "2.0.0", functions := ["G"] }),
        ("more", { version := "1.0.0", functions := ["H", "F"] })]⟩ := by decide +kernel
  obtain ⟨header, rows, hrows, happortions⟩ := (apportions_of_decodeLockfile? _).2 _ hread
  exact ⟨header, rows, _, hrows, hread, happortions, by decide +kernel, by decide +kernel,
    by decide +kernel⟩

end Workbook

end SheetPackages
