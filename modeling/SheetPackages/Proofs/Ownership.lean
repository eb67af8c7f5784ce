import SheetPackages.Proofs.Runs
import SheetPackages.Proofs.Workbook.Entries

/-!
# Owners that are read back

Functions of archives may have any names, and a lockfile keeps the names of a package in one list
cell. After an installation the owners that are read from the workbook are those of the plan exactly
if the functions of every package are listable; otherwise a function that was installed is without
its owner. Which functions such a package is said to own instead is not described.
-/

namespace SheetPackages

open Workbook (Change Listable State)

/-! ## Claims -/

namespace Lockfile

theorem mem_claims_iff {l : Lockfile} {function package : String} :
    (function, package) ∈ l.claims ↔
      ∃ entry, l.get? package = some entry ∧ function ∈ entry.functions := by
  rw [claims, List.mem_flatMap]
  constructor
  · rintro ⟨⟨name, entry⟩, hentry, hclaim⟩
    obtain ⟨f, hf, heq⟩ := List.mem_map.mp hclaim
    cases heq
    exact ⟨entry, OrderedMap.get?_eq_some_iff.mpr hentry, hf⟩
  · rintro ⟨entry, hentry, hf⟩
    exact ⟨(package, entry), OrderedMap.get?_eq_some_iff.mp hentry, List.mem_map_of_mem hf⟩

theorem owner?_eq_some_iff {l : Lockfile} (hnodup : l.ownedFunctions.Nodup)
    {function package : String} :
    l.owner? function = some package ↔ (function, package) ∈ l.claims := by
  rw [← map_fst_claims] at hnodup
  rw [owner?, owners, OrderedMap.get?_eq_some_iff, OrderedMap.entries_ofList hnodup]

/-- Giving functions to their first owners adds no claim. -/
theorem mem_claims_of_exclusive {l : Lockfile} {function package : String}
    (h : (function, package) ∈ l.exclusive.claims) : (function, package) ∈ l.claims := by
  obtain ⟨entry, hentry, hf⟩ := mem_claims_iff.mp h
  have hmem := OrderedMap.get?_eq_some_iff.mp hentry
  rw [entries_exclusive] at hmem
  obtain ⟨⟨name, old⟩, hold, hkeeps⟩ := exists_of_mem_right (forall₂_keepFirst _ _) hmem
  obtain rfl : package = name := hkeeps.package_eq
  refine mem_claims_iff.mpr ⟨old, OrderedMap.get?_eq_some_iff.mpr hold, ?_⟩
  exact hkeeps.sublist.subset hf

end Lockfile

namespace Workbook

theorem claims_rereadAll (l : Lockfile) : (rereadAll l).claims = l.claims := by
  rw [Lockfile.claims, entries_rereadAll, List.flatMap_map]
  rfl

/-- The owners in a lockfile are read as they were written exactly if every list of functions is. -/
theorem owner?_read_iff {l read : Lockfile} (hnodup : l.ownedFunctions.Nodup)
    (hread : decodeLockfile? (encodeLockfile l).definition = some read) :
    (∀ function, read.owner? function = l.owner? function) ↔
      ∀ entry ∈ l.packages.values, Listable entry.functions := by
  constructor
  · intro hsame entry hentry
    rw [decodeLockfile?_eq_exclusive] at hread
    cases hread
    obtain ⟨package, hpackage⟩ := OrderedMap.mem_values_iff.mp hentry
    have hmem := OrderedMap.get?_eq_some_iff.mp hpackage
    apply listable_of_subset ((List.nodup_flatMap.mp hnodup).1 (package, entry) hmem)
    intro function hfunction
    have howner : l.owner? function = some package :=
      (Lockfile.owner?_eq_some_iff hnodup).mpr (Lockfile.mem_claims_iff.mpr ⟨entry, hpackage, hfunction⟩)
    rw [← hsame function] at howner
    have hclaim := Lockfile.mem_claims_of_exclusive (Lockfile.mem_claims_of_owner howner)
    obtain ⟨found, hfound, hfunction⟩ := Lockfile.mem_claims_iff.mp hclaim
    rw [Lockfile.get?, OrderedMap.get?_map] at hfound
    obtain ⟨old, hold, rfl⟩ := Option.map_eq_some_iff.mp hfound
    cases hpackage.symm.trans hold
    exact hfunction
  · intro hlistable function
    rw [decodeLockfile?_of_listable hlistable hnodup] at hread
    cases hread
    rw [Lockfile.owner?, Lockfile.owners, claims_rereadAll]
    rfl

end Workbook

/-! ## Installing -/

variable {σ : Type}

/-- Whatever project and archives an installation meets, its plan gives every function one owner. -/
theorem Plan.nodup_of_install {supply : Supply (StateM σ)} {limit : Nat} {s : State}
    {targets : List Target} {renames : RenameMaps} {start : σ} {p : Plan}
    (h : ((install supply limit s targets renames).run.run start).1 = .ok p) :
    p.lockfile.ownedFunctions.Nodup := by
  obtain ⟨project, after, _, h⟩ := exists_of_run_bind h
  obtain ⟨selection, after, _, h⟩ := exists_of_run_bind h
  obtain ⟨batch, after, _, h⟩ := exists_of_run_bind h
  obtain ⟨checked, after, hchecked, h⟩ := exists_of_run_bind h
  cases h
  exact Batch.nodup_ownedFunctions_lockfile ((Batch.checked_apart hchecked).1.withAliases renames)

/-- Where a plan has been carried out, the lockfile is read from the planned one. -/
theorem Plan.decodeLockfile?_planned (s : State) (p : Plan) :
    Workbook.decodeLockfile? (Workbook.encodeLockfile p.lockfile).definition =
      some (State.ofFunctions (Change.applyAll s.functions (p.changes s))).lockfile := by
  have hfound : Workbook.lockfile? (Change.applyAll s.functions (p.changes s)) =
      Workbook.decodeLockfile? (Workbook.encodeLockfile p.lockfile).definition := by
    rw [Workbook.lockfile?, applyAll_changes, OrderedMap.get?_insert, if_pos rfl, Option.bind_some]
  rw [State.ofFunctions, hfound, Workbook.decodeLockfile?_eq_exclusive, Option.getD_some]

namespace Operation

variable {w : Occasion σ} {functions : FunctionMap} {targets : List Target} {renames : RenameMaps}

/-- After an installation, the functions have the owners that were planned exactly if the functions
of every package can be kept in a list cell. -/
theorem owner?_installed_iff {p : Plan}
    (h : (install targets renames).plan? w (State.ofFunctions functions) = some p) :
    (∀ function, (State.ofFunctions ((install targets renames).perform w functions)).lockfile.owner?
        function = p.lockfile.owner? function) ↔
      ∀ entry ∈ p.lockfile.packages.values, Listable entry.functions := by
  have hafter : (install targets renames).perform w functions =
      Change.applyAll functions (p.changes (State.ofFunctions functions)) := by
    simp only [perform, h]
  rw [hafter]
  exact Workbook.owner?_read_iff (Plan.nodup_of_install (toOption_eq_some_iff.mp h))
    (Plan.decodeLockfile?_planned (State.ofFunctions functions) p)

/-- An occasion without a registry and with one archive in every file. -/
def offlineWith (a : Archive) : Occasion Unit :=
  { offline with supply := { offline.supply with file := fun _ ↦ pure a } }

/-- An archive of three functions, the first of which begins as no name does. -/
def marksArchive : Archive where
  project := { name := "marks", version := "1.0.0" }
  functions := .ofList [("√", { name := "√", definition := "=LAMBDA(x, x^0.5)" }),
    ("SUM,±", { name := "SUM,±", definition := "=1" }),
    ("__LOCK__", { name := "__LOCK__", definition := "=2" })]
  integrity := "sha256:0"

/-- Of the functions of the archive the reserved one is left out; the others keep their owner. -/
theorem owner?_installed_marks :
    let o : Operation := .install [.archive "/marks.gspkg"] .empty
    ∃ p, o.plan? (offlineWith marksArchive) (State.ofFunctions palette) = some p ∧
      p.lockfile.ownedFunctions = ["√", "SUM,±"] ∧
      ∀ function,
        (State.ofFunctions (o.perform (offlineWith marksArchive) palette)).lockfile.owner?
          function = p.lockfile.owner? function := by
  intro o
  have hlists : ((o.plan? (offlineWith marksArchive) (State.ofFunctions palette)).map
      fun p ↦ p.lockfile.packages.values.map Locked.functions) = some [["√", "SUM,±"]] := by
    decide +kernel
  obtain ⟨p, hp, hvalues⟩ := Option.map_eq_some_iff.mp hlists
  have howned : p.lockfile.ownedFunctions = ["√", "SUM,±"] := by
    calc
      p.lockfile.ownedFunctions = (p.lockfile.packages.values.map Locked.functions).flatten := by
        rw [Lockfile.ownedFunctions, List.flatMap, OrderedMap.values, List.map_map]
        rfl
      _ = ["√", "SUM,±"] := by rw [hvalues]; rfl
  refine ⟨p, hp, howned, (owner?_installed_iff hp).mpr fun entry hentry ↦ ?_⟩
  have hlist : entry.functions ∈ [["√", "SUM,±"]] := hvalues ▸ List.mem_map_of_mem hentry
  rw [List.mem_singleton.mp hlist]
  decide

/-- An archive of two functions, the second of which begins with a letter that begins no entry. -/
def areasArchive : Archive where
  project := { name := "lib", version := "1.0.0" }
  functions := .ofList [("AREA", { name := "AREA", definition := "=1" }),
    ("ÄREA", { name := "ÄREA", definition := "=2" })]
  integrity := "sha256:0"

/-- In the lockfile that is read, neither of the two functions has an owner: their names have become
one, which no function has. -/
theorem owner?_installed_fused :
    let o : Operation := .install [.archive "/lib.gspkg"] .empty
    ¬∀ p, o.plan? (offlineWith areasArchive) (State.ofFunctions .empty) = some p →
      ∀ function,
        (State.ofFunctions (o.perform (offlineWith areasArchive) .empty)).lockfile.owner?
          function = p.lockfile.owner? function := by
  intro o h
  have howners : ((o.plan? (offlineWith areasArchive) (State.ofFunctions .empty)).map
      fun p ↦ p.lockfile.owner? "AREA") = some (some "lib") := by
    decide +kernel
  obtain ⟨p, hp, howner⟩ := Option.map_eq_some_iff.mp howners
  have hread : (State.ofFunctions (o.perform (offlineWith areasArchive) .empty)).lockfile.owner?
      "AREA" = none := by
    decide +kernel
  rw [← h p hp "AREA", hread] at howner
  cases howner

end Operation

end SheetPackages
