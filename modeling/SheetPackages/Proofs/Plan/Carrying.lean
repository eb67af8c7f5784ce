import SheetPackages.Proofs.Plan.Fitting
import SheetPackages.Proofs.Workbook.Records

/-!
# Carrying plans out

What a workbook holds after the changes of a plan: the project and the lockfile of the plan, every
function that the plan provides, none that is obsolete, and otherwise what it held before. A function
with an unchanged fingerprint is not written, so it stays the old one; how the two may differ is not
described here.
-/

namespace SheetPackages

namespace Workbook.Change

/-- The name of the function that is written or deleted. -/
def name : Change → String
  | create f | update f => f.name
  | delete name => name

/-- The function that is written, if any. -/
def written? : Change → Option Function
  | create f | update f => some f
  | delete _ => none

theorem apply_of_written? {c : Change} {f : Function} (h : c.written? = some f)
    (functions : FunctionMap) : apply functions c = functions.insert f.name f := by
  cases c with
  | create g | update g =>
    cases h
    rfl
  | delete name => cases h

theorem name_of_written? {c : Change} {f : Function} (h : c.written? = some f) :
    c.name = f.name := by
  cases c with
  | create g | update g =>
    cases h
    rfl
  | delete name => cases h

/-- A change leaves all functions of other names as they are. -/
theorem get?_apply_of_ne {c : Change} {other : String} (h : other ≠ c.name)
    (functions : FunctionMap) : (apply functions c).get? other = functions.get? other := by
  cases c with
  | create f | update f => exact (OrderedMap.get?_insert functions f.name other f).trans (if_neg h)
  | delete name => exact (OrderedMap.get?_erase functions name other).trans (if_neg h)

theorem applyAll_append (functions : FunctionMap) (changes more : List Change) :
    applyAll functions (changes ++ more) = applyAll (applyAll functions changes) more :=
  List.foldl_append

theorem get?_applyAll_of_ne {changes : List Change} {other : String}
    (h : ∀ c ∈ changes, other ≠ c.name) (functions : FunctionMap) :
    (applyAll functions changes).get? other = functions.get? other := by
  induction changes generalizing functions with
  | nil => rfl
  | cons c rest ih =>
    obtain ⟨hc, hrest⟩ := List.forall_mem_cons.mp h
    calc
      (applyAll (apply functions c) rest).get? other = (apply functions c).get? other :=
        ih hrest (apply functions c)
      _ = functions.get? other := get?_apply_of_ne hc functions

theorem applyAll_delete (names : List String) (functions : FunctionMap) :
    applyAll functions (names.map delete) = functions.filter fun name _ ↦ name ∉ names := by
  induction names generalizing functions with
  | nil => exact OrderedMap.ext (by simp [applyAll, OrderedMap.filter])
  | cons name rest ih =>
    refine (ih (functions.erase name)).trans (OrderedMap.ext ?_)
    refine List.filter_filter.trans (List.filter_congr fun entry _ ↦ ?_)
    simp only [List.mem_cons, not_or, Bool.decide_and, ne_eq, Bool.and_comm]

theorem get?_applyAll_delete (names : List String) (functions : FunctionMap) (other : String) :
    (applyAll functions (names.map delete)).get? other =
      if other ∈ names then none else functions.get? other := by
  rw [applyAll_delete, OrderedMap.get?_filter]
  by_cases h : other ∈ names
  · simp [h]
  · cases functions.get? other <;> simp [h]

theorem applyAll_create {entries : List (String × Function)}
    (hkeyed : ∀ entry ∈ entries, entry.2.name = entry.1) (functions : FunctionMap) :
    applyAll functions (entries.map fun entry ↦ create entry.2) = functions.insertAll entries := by
  induction entries generalizing functions with
  | nil => rfl
  | cons entry rest ih =>
    obtain ⟨hentry, hrest⟩ := List.forall_mem_cons.mp hkeyed
    refine (ih hrest (functions.insert entry.2.name entry.2)).trans ?_
    rw [hentry]
    rfl

/-- Changes of functions that are filtered out do not matter. -/
theorem filter_applyAll {keep : String → Bool} {changes : List Change}
    (h : ∀ c ∈ changes, keep c.name = false) (functions : FunctionMap) :
    ((applyAll functions changes).filter fun name _ ↦ keep name) =
      functions.filter fun name _ ↦ keep name := by
  induction changes generalizing functions with
  | nil => rfl
  | cons c rest ih =>
    obtain ⟨hc, hrest⟩ := List.forall_mem_cons.mp h
    refine (ih hrest (apply functions c)).trans ?_
    cases c with
    | create f | update f =>
      exact (functions.filter_insert keep f.name f).trans (if_neg (ne_true_of_eq_false hc))
    | delete name =>
      apply OrderedMap.ext
      refine List.filter_filter.trans (List.filter_congr fun entry _ ↦ ?_)
      have hname : keep name = false := hc
      by_cases heq : entry.1 = name <;> simp [heq, hname]

end Workbook.Change

namespace Plan

open Workbook (Change State)

/-! ## The writings of a plan -/

variable {s : State} {p : Plan}

theorem written?_of_writing? {name : String} {f : Function} {c : Change}
    (h : writing? s name f = some c) : c.written? = some f := by
  unfold writing? at h
  split at h
  · cases h
    rfl
  · split at h
    · cases h
    · cases h
      rfl

theorem writing?_of_fingerprint_eq {name : String} {old f : Function}
    (hold : s.functions.get? name = some old) (h : old.fingerprint = f.fingerprint) :
    writing? s name f = none := by
  simp only [writing?, hold, if_pos h]

/-- A function that is there is updated, if it is written at all. -/
theorem eq_update_of_writing? {name : String} {f : Function} {c : Change}
    (hthere : s.functions.contains name = true) (h : writing? s name f = some c) :
    c = .update f := by
  obtain ⟨old, hold⟩ := Option.isSome_iff_exists.mp hthere
  simp only [writing?, hold] at h
  split at h
  · cases h
  · exact (Option.some.inj h).symm

/-- Only functions that the plan provides are written. -/
theorem contains_of_mem_writings (hkeyed : Keyed p.functions) {c : Change} (h : c ∈ writings s p) :
    p.functions.contains c.name = true := by
  obtain ⟨⟨name, f⟩, hentry, hwriting⟩ := List.mem_filterMap.mp h
  have hget := OrderedMap.get?_eq_some_iff.mpr hentry
  rw [Change.name_of_written? (written?_of_writing? hwriting), hkeyed name f hget,
    OrderedMap.contains, hget, Option.isSome_some]

/-- Among writings under different names, what becomes of a name depends on its own one. -/
theorem get?_applyAll_writings {entries : List (String × Function)}
    (hnodup : (entries.map Prod.fst).Nodup) (hkeyed : ∀ entry ∈ entries, entry.2.name = entry.1)
    {name : String} {f : Function} (hmem : (name, f) ∈ entries) (functions : FunctionMap) :
    (Change.applyAll functions
        (entries.filterMap fun entry ↦ writing? s entry.1 entry.2)).get? name =
      if writing? s name f = none then functions.get? name else some f := by
  obtain ⟨before, behind, rfl⟩ := List.append_of_mem hmem
  rw [List.map_append, List.map_cons, List.nodup_append, List.nodup_cons] at hnodup
  obtain ⟨_, ⟨hbehind, _⟩, hbefore⟩ := hnodup
  have hother {others : List (String × Function)}
      (hothers : ∀ entry ∈ others, entry.2.name = entry.1 ∧ entry.1 ≠ name) :
      ∀ c ∈ others.filterMap fun entry ↦ writing? s entry.1 entry.2, name ≠ c.name := by
    intro c hc
    obtain ⟨entry, hentry, hwriting⟩ := List.mem_filterMap.mp hc
    obtain ⟨hname, hne⟩ := hothers entry hentry
    rw [Change.name_of_written? (written?_of_writing? hwriting), hname]
    exact hne.symm
  obtain ⟨hkeyedBefore, hkeyedRest⟩ := List.forall_mem_append.mp hkeyed
  obtain ⟨hf, hkeyedBehind⟩ := List.forall_mem_cons.mp hkeyedRest
  have hunwritten := hother fun entry hentry ↦ ⟨hkeyedBefore entry hentry,
    hbefore _ (List.mem_map_of_mem hentry) _ List.mem_cons_self⟩
  have hlater := hother fun entry hentry ↦ ⟨hkeyedBehind entry hentry,
    fun heq ↦ hbehind (List.mem_map.mpr ⟨entry, hentry, heq⟩)⟩
  rw [List.filterMap_append, Change.applyAll_append]
  cases hwriting : writing? s name f with
  | none =>
    rw [List.filterMap_cons_none (by exact hwriting), Change.get?_applyAll_of_ne hlater,
      Change.get?_applyAll_of_ne hunwritten, if_pos rfl]
  | some c =>
    rw [List.filterMap_cons_some (by exact hwriting), if_neg (Option.some_ne_none c)]
    refine (Change.get?_applyAll_of_ne hlater _).trans ?_
    rw [Change.apply_of_written? (written?_of_writing? hwriting), hf, OrderedMap.get?_insert,
      if_pos rfl]

/-! ## All changes -/

/-- The functions when all but the project and the lockfile have been changed. -/
def written (s : State) (p : Plan) : FunctionMap :=
  Change.applyAll (Change.applyAll s.functions (p.deleted.map .delete)) (writings s p)

theorem applyAll_changes (s : State) (p : Plan) :
    Change.applyAll s.functions (p.changes s) =
      ((written s p).insert Function.projectName (Workbook.encodeProject p.project)).insert
        Function.lockName (Workbook.encodeLockfile p.lockfile) := by
  rw [changes, Change.applyAll_append, Change.applyAll_append]
  rfl

theorem get?_applyAll_changes {name : String} (h : Function.isReserved name = false) :
    (Change.applyAll s.functions (p.changes s)).get? name = (written s p).get? name := by
  rw [Function.isReserved, Bool.or_eq_false_iff, beq_eq_false_iff_ne, beq_eq_false_iff_ne] at h
  rw [applyAll_changes, OrderedMap.get?_insert, if_neg h.2, OrderedMap.get?_insert, if_neg h.1]

theorem mem_deleted {name : String} :
    name ∈ p.deleted ↔ name ∈ p.obsolete ∧ p.functions.contains name = false := by
  rw [deleted, List.mem_filter, Bool.not_eq_true']

/-- What the plan does not provide is deleted if it is obsolete, and otherwise stays as it is. -/
theorem get?_written (hkeyed : Keyed p.functions) {name : String}
    (h : p.functions.contains name = false) :
    (written s p).get? name = if name ∈ p.obsolete then none else s.functions.get? name := by
  have hunwritten : ∀ c ∈ writings s p, name ≠ c.name := by
    intro c hc heq
    rw [heq, contains_of_mem_writings hkeyed hc] at h
    cases h
  rw [written, Change.get?_applyAll_of_ne hunwritten, Change.get?_applyAll_delete]
  simp only [mem_deleted, h, and_true]

/-- What the plan provides is there as planned, unless a function with its fingerprint was. -/
theorem get?_written_of_provided (hkeyed : Keyed p.functions) {name : String} {f : Function}
    (h : p.functions.get? name = some f) : (written s p).get? name =
      some (match s.functions.get? name with
        | some old => if old.fingerprint = f.fingerprint then old else f
        | none => f) := by
  have hstays : name ∉ p.deleted := by
    intro hmem
    rw [OrderedMap.contains_eq_false_iff.mp (mem_deleted.mp hmem).2] at h
    cases h
  have hmem := OrderedMap.get?_eq_some_iff.mp h
  have hentries : ∀ entry ∈ p.functions.entries, entry.2.name = entry.1 := fun entry hentry ↦
    hkeyed entry.1 entry.2 (OrderedMap.get?_eq_some_iff.mpr hentry)
  refine (get?_applyAll_writings p.functions.nodup hentries hmem _).trans ?_
  rw [Change.get?_applyAll_delete, if_neg hstays, writing?]
  cases s.functions.get? name with
  | none => rfl
  | some old =>
    by_cases hsame : old.fingerprint = f.fingerprint <;> simp [hsame]

/-- What the plan provides is there with the fingerprint of the planned function. -/
theorem exists_written_of_provided (hkeyed : Keyed p.functions) {name : String} {f : Function}
    (h : p.functions.get? name = some f) :
    ∃ found, (written s p).get? name = some found ∧ found.fingerprint = f.fingerprint := by
  refine ⟨_, get?_written_of_provided hkeyed h, ?_⟩
  cases s.functions.get? name with
  | none => rfl
  | some old =>
    simp only
    split
    · assumption
    · rfl

theorem contains_written (hkeyed : Keyed p.functions) {name : String}
    (h : p.functions.contains name = true) : (written s p).contains name = true := by
  obtain ⟨f, hf⟩ := Option.isSome_iff_exists.mp h
  obtain ⟨found, hfound, _⟩ := exists_written_of_provided (s := s) hkeyed hf
  rw [OrderedMap.contains, hfound, Option.isSome_some]

/-- The functions after the changes of a plan, compared with the plan and with those before. -/
structure CarriedOut (p : Plan) (before after : FunctionMap) : Prop where
  project : after.get? Function.projectName = some (Workbook.encodeProject p.project)
  lockfile : after.get? Function.lockName = some (Workbook.encodeLockfile p.lockfile)
  provided : ∀ name, Function.isReserved name = false → p.functions.contains name = true →
    after.contains name = true
  deleted : ∀ name ∈ p.obsolete, Function.isReserved name = false →
    p.functions.contains name = false → after.get? name = none
  kept : ∀ name, Function.isReserved name = false → p.functions.contains name = false →
    name ∉ p.obsolete → after.get? name = before.get? name

theorem carriedOut_changes (s : State) (hkeyed : Keyed p.functions) :
    CarriedOut p s.functions (Change.applyAll s.functions (p.changes s)) := by
  constructor
  case project =>
    rw [applyAll_changes, OrderedMap.get?_insert, if_neg (by decide), OrderedMap.get?_insert,
      if_pos rfl]
  case lockfile => rw [applyAll_changes, OrderedMap.get?_insert, if_pos rfl]
  case provided =>
    intro name hreserved hname
    rw [OrderedMap.contains, get?_applyAll_changes hreserved]
    exact contains_written hkeyed hname
  case deleted =>
    intro name hobsolete hreserved hname
    rw [get?_applyAll_changes hreserved, get?_written hkeyed hname, if_pos hobsolete]
  case kept =>
    intro name hreserved hname hobsolete
    rw [get?_applyAll_changes hreserved, get?_written hkeyed hname, if_neg hobsolete]

section

variable {after : FunctionMap} {name : String}

theorem CarriedOut.contains_of_isReserved (h : p.CarriedOut s.functions after)
    (hreserved : Function.isReserved name = true) : after.contains name = true := by
  rw [Function.isReserved, Bool.or_eq_true, beq_iff_eq, beq_iff_eq] at hreserved
  rcases hreserved with rfl | rfl
  · rw [OrderedMap.contains, h.project, Option.isSome_some]
  · rw [OrderedMap.contains, h.lockfile, Option.isSome_some]

/-! ## Fitting plans -/

/-- What packages own afterwards is there: it has just been provided, or it has been left alone. -/
theorem CarriedOut.contains_of_owned (h : p.CarriedOut s.functions after) (hp : p.Fits s)
    (hbefore : ∀ name ∈ s.lockfile.ownedFunctions, s.functions.contains name = true)
    (hname : name ∈ p.lockfile.ownedFunctions) : after.contains name = true := by
  have hreserved := (hp.names name hname).2
  cases hnew : p.functions.contains name with
  | true => exact h.provided name hreserved hnew
  | false =>
    rcases hp.provided name hname with hthere | ⟨hold, hobsolete⟩
    · rw [hthere] at hnew
      cases hnew
    · rw [OrderedMap.contains, h.kept name hreserved hnew hobsolete]
      exact hbefore name hold

/-- What no package owned is as it was, and no package owns it afterwards. -/
theorem CarriedOut.get?_of_not_owned (h : p.CarriedOut s.functions after) (hp : p.Fits s)
    (hreserved : Function.isReserved name = false) (hthere : s.functions.contains name = true)
    (hfree : name ∉ s.lockfile.ownedFunctions) :
    after.get? name = s.functions.get? name ∧ name ∉ p.lockfile.ownedFunctions := by
  obtain ⟨hnew, hobsolete, hunowned⟩ := hp.spares hthere hfree
  exact ⟨h.kept name hreserved hnew hobsolete, hunowned⟩

/-- What is there afterwards is owned, or was there without an owner. -/
theorem CarriedOut.owned_of_contains (h : p.CarriedOut s.functions after) (hp : p.Fits s)
    (hreserved : Function.isReserved name = false) (hname : after.contains name = true) :
    name ∈ p.lockfile.ownedFunctions ∨
      s.functions.contains name = true ∧ name ∉ s.lockfile.ownedFunctions := by
  cases hnew : p.functions.contains name with
  | true => exact .inl (hp.claimed name hnew)
  | false =>
    have hobsolete : name ∉ p.obsolete := by
      intro hmem
      rw [OrderedMap.contains, h.deleted name hmem hreserved hnew] at hname
      cases hname
    rw [OrderedMap.contains, h.kept name hreserved hnew hobsolete] at hname
    by_cases hold : name ∈ s.lockfile.ownedFunctions
    · exact .inl ((hp.remaining name hold).resolve_left hobsolete)
    · exact .inr ⟨hname, hold⟩

end

end Plan

end SheetPackages
