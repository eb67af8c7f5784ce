import Mathlib.Data.List.Basic
import Mathlib.Logic.Function.Iterate
import SheetPackages.Lockfile.Closure

/-!
# Rounds of a walk

A walk over a lockfile goes on in rounds, each of which takes one pending name. A name is expanded
at most once, and only then are names added, those that it needs. So the dependencies of the names
that have not been reached bound what can still become pending, and the walk is over after as many
rounds as there are roots and dependencies, on lockfiles with cycles and with dependencies that are
not locked as well.
-/

namespace SheetPackages.Lockfile

/-- The first pending name is expanded unless it has been reached before. -/
def round (l : Lockfile) : List String × List String → List String × List String
  | (reached, []) => (reached, [])
  | (reached, name :: rest) =>
    if name ∈ reached then (reached, rest) else (name :: reached, l.needs name ++ rest)

/-- How many dependencies the locked names have that have not been reached. -/
def unmet (l : Lockfile) (reached : List String) : Nat :=
  ((l.unreached reached).flatMap l.needs).length

/-- How many dependencies the lockfile lists. -/
def listed (l : Lockfile) : Nat :=
  (l.packages.values.flatMap Locked.dependencies).length

variable {l : Lockfile}

theorem unmet_nil (l : Lockfile) : l.unmet [] = l.listed := by
  have hkeys : l.unreached [] = l.packages.entries.map Prod.fst := by
    simp [unreached, OrderedMap.keys]
  have hneeds : ∀ entry ∈ l.packages.entries,
      (l.needs entry.1).length = entry.2.dependencies.length := by
    intro entry hentry
    have hget : l.get? entry.1 = some entry.2 := OrderedMap.get?_eq_some_iff.mpr hentry
    rw [needs, hget]
    exact List.length_map _
  rw [unmet, listed, hkeys, OrderedMap.values, List.flatMap_map, List.flatMap_map,
    List.length_flatMap, List.length_flatMap]
  exact congrArg List.sum (List.map_congr_left hneeds)

/-- Expanding a name makes as many names pending as it takes from the unmet dependencies. -/
theorem length_needs_add_unmet {reached : List String} {name : String} (hnew : name ∉ reached) :
    (l.needs name).length + l.unmet (name :: reached) = l.unmet reached := by
  have hnodup : (l.unreached reached).Nodup := l.packages.nodup.filter _
  have herase : l.unreached (name :: reached) = (l.unreached reached).erase name := by
    rw [hnodup.erase_eq_filter, unreached, unreached, List.filter_filter]
    refine List.filter_congr fun other _ ↦ ?_
    simp only [List.mem_cons, not_or, Bool.decide_and, bne, beq_eq_decide, decide_not]
  rw [unmet, unmet, herase]
  by_cases hmem : name ∈ l.unreached reached
  · have hperm := (List.perm_cons_erase hmem).flatMap_right l.needs
    rw [hperm.length_eq, List.flatMap_cons, List.length_append]
  · have hkey : name ∉ l.packages.keys := fun h ↦
      hmem (List.mem_filter.mpr ⟨h, decide_eq_true hnew⟩)
    rw [List.erase_of_not_mem hmem, needs_eq_nil hkey, List.length_nil, Nat.zero_add]

/-- A walk is over after as many rounds as names are pending and dependencies unmet, and further
rounds change nothing. -/
theorem iterate_round {reached pending : List String} {n : Nat}
    (h : pending.length + l.unmet reached ≤ n) :
    l.round^[n] (reached, pending) = (l.walk reached pending, []) := by
  fun_induction walk l reached pending generalizing n with
  | case1 reached => exact Function.iterate_fixed rfl n
  | case2 reached name rest hold ih =>
    rw [List.length_cons] at h
    obtain ⟨m, rfl⟩ : ∃ m, n = m + 1 := Nat.exists_eq_succ_of_ne_zero (by omega)
    rw [Function.iterate_succ_apply, round, if_pos hold]
    exact ih (by omega)
  | case3 reached name rest hnew ih =>
    have hunmet := length_needs_add_unmet (l := l) hnew
    rw [List.length_cons] at h
    obtain ⟨m, rfl⟩ : ∃ m, n = m + 1 := Nat.exists_eq_succ_of_ne_zero (by omega)
    rw [Function.iterate_succ_apply, round, if_neg hnew]
    exact ih (by rw [List.length_append]; omega)

/-- The walk from some roots is over after as many rounds as there are roots and listed
dependencies. -/
theorem iterate_round_roots (l : Lockfile) (roots : List String) :
    l.round^[roots.length + l.listed] ([], roots) = (l.closure roots, []) :=
  iterate_round (Nat.add_le_add_left (Nat.le_of_eq (unmet_nil l)) _)

theorem closure_eq_iterate (l : Lockfile) (roots : List String) :
    l.closure roots = (l.round^[roots.length + l.listed] ([], roots)).1 :=
  (congrArg Prod.fst (l.iterate_round_roots roots)).symm

end SheetPackages.Lockfile
