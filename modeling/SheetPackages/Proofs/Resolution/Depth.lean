import Mathlib.Data.List.Perm.Subperm
import SheetPackages.Proofs.Resolution.Limits

/-!
# The depth of a search

A search calls itself behind each pin. On a branch of these calls every pin is for another package,
one that the index has a version of, so a branch has at most as many pins as the index has packages,
and the calls are never nested deeper than that. This holds of every index, also where packages need
each other, themselves, or packages that are not there, and without a limit on rounds.

The depth is measured by a search that hands over to any other computation once a number of calls
are nested. Where no branch is that long it does not matter to which.
-/

namespace SheetPackages.Resolution

/-- The search in which `below` takes the place of the calls nested `depth` deep. -/
def searchAbove (below : Continuation) (p : Provider) (limit : Option Nat) : Nat → Continuation
  | 0 => below
  | depth + 1 => round (searchAbove below p limit depth) p limit

/-- The packages pinned one after the other on a way from a state to another. -/
inductive Branch (p : Provider) : State → List String → State → Prop
  | nil {s : State} : Branch p s [] s
  | pin {s t u : State} {name : String} {names : List String} {found : List Package} {c : Package}
      (hpick : pick p s = some (name, found)) (hmem : c ∈ found) (hpins : Pins p s name c t)
      (hrest : Branch p t names u) : Branch p s (name :: names) u

variable {p : Provider} {s t : State} {names : List String}

theorem keys_pinnedWith {name : String} (hfree : s.pinned.contains name = false) (c : Package)
    (requirements : List Dependency) :
    (pinnedWith s name c requirements).keys = s.pinned.keys ++ [name] := by
  unfold OrderedMap.keys pinnedWith
  rw [OrderedMap.entries_insert_of_not_contains _ hfree, List.map_append]
  rfl

/-! ## Branches -/

/-- What is pinned on a branch comes behind what was pinned before. -/
theorem Branch.keys_eq (h : Branch p s names t) : t.pinned.keys = s.pinned.keys ++ names := by
  induction h with
  | nil => exact (List.append_nil _).symm
  | pin hpick _ hpins _ ih =>
    obtain ⟨_, _⟩ := hpins
    rw [ih, keys_pinnedWith (pick_spec hpick).1, List.append_assoc, List.singleton_append]

/-- No package is pinned twice on a branch. -/
theorem Branch.nodup (h : Branch p s names t) : names.Nodup := by
  have hkeys : t.pinned.keys.Nodup := t.pinned.nodup
  rw [h.keys_eq] at hkeys
  exact (List.nodup_append.mp hkeys).2.1

/-- Only packages of which the index has a version are pinned. -/
theorem Branch.versions_ne_nil {i : Index} (h : Branch i.provider s names t) :
    ∀ name ∈ names, i.versions name ≠ [] := by
  induction h with
  | nil => exact nofun
  | pin hpick hmem _ _ ih =>
    rw [(pick_spec hpick).2] at hmem
    exact List.forall_mem_cons.mpr ⟨List.ne_nil_of_mem (Index.of_mem_candidates hmem).2.1, ih⟩

theorem mem_keys_of_versions {i : Index} {name : String} (h : i.versions name ≠ []) :
    name ∈ i.packages.keys := by
  rw [Index.versions] at h
  cases hp : i.package? name with
  | none => simp [hp] at h
  | some listing => exact OrderedMap.mem_keys_of_get? hp

theorem Branch.length_le {i : Index} (h : Branch i.provider s names t) :
    names.length ≤ i.size := by
  have hkeys : names ⊆ i.packages.keys := fun name hname ↦
    mem_keys_of_versions (h.versions_ne_nil name hname)
  have hle := (h.nodup.subperm hkeys).length_le
  rwa [OrderedMap.keys, List.length_map] at hle

/-- Where pins lead to, a branch leads to. -/
theorem exists_branch (h : Relation.ReflTransGen (Step p) s t) : ∃ names, Branch p s names t := by
  induction h using Relation.ReflTransGen.head_induction_on with
  | refl => exact ⟨[], .nil⟩
  | head hstep _ ih =>
    obtain ⟨name, found, c, hpick, hmem, hpins⟩ := hstep
    obtain ⟨names, hbranch⟩ := ih
    exact ⟨name :: names, .pin hpick hmem hpins hbranch⟩

/-! ## Nested calls -/

/-- Calls nested `depth` deep are made in states only which branches of `depth` pins lead to. -/
theorem searchAbove_congr {below other : Continuation} {limit : Option Nat} {depth : Nat}
    (h : ∀ names t, Branch p s names t → names.length = depth →
      ∀ progress, below t progress = other t progress) (progress : Progress) :
    searchAbove below p limit depth s progress = searchAbove other p limit depth s progress := by
  induction depth generalizing s progress with
  | zero => exact h [] s .nil rfl progress
  | succ depth ih =>
    rw [searchAbove, searchAbove]
    refine round_congr (fun t hstep progress ↦ ih (fun names u hbranch hlength ↦ ?_) progress) _ _
    obtain ⟨name, found, c, hpick, hmem, hpins⟩ := hstep
    exact h (name :: names) u (.pin hpick hmem hpins hbranch) (congrArg (· + 1) hlength)

theorem searchAbove_search (limit : Option Nat) (depth : Nat) :
    searchAbove (search p limit) p limit depth = search p limit := by
  induction depth with
  | zero => rfl
  | succ depth ih =>
    rw [searchAbove, ih]
    funext s progress
    exact (search_eq_round p limit s progress).symm

/-- Without a limit every search of an index ends: on each branch of its calls different packages
are pinned of which there are versions, so there are no calls nested deeper than the index has
packages. -/
theorem search_terminates (i : Index) (roots : List Requirement) :
    (∀ names t, Branch i.provider (start roots) names t →
        t.pinned.keys = names ∧ names.Nodup ∧ (∀ name ∈ names, i.versions name ≠ []) ∧
          names.length ≤ i.size) ∧
      (∀ depth below, (∀ names t, Branch i.provider (start roots) names t →
          names.length = depth → ∀ progress, below t progress = search i.provider none t progress) →
        ∀ progress, searchAbove below i.provider none depth (start roots) progress =
          search i.provider none (start roots) progress) ∧
      (∀ below progress, searchAbove below i.provider none (i.size + 1) (start roots) progress =
        search i.provider none (start roots) progress) ∧
      ∀ progress n, search i.provider none (start roots) progress ≠ .error (.tooManyRounds n) := by
  have hcalls (depth : Nat) (below : Continuation)
      (h : ∀ names t, Branch i.provider (start roots) names t → names.length = depth →
        ∀ progress, below t progress = search i.provider none t progress) (progress : Progress) :
      searchAbove below i.provider none depth (start roots) progress =
        search i.provider none (start roots) progress := by
    rw [searchAbove_congr h, searchAbove_search]
  refine ⟨fun names t h ↦ ?_, hcalls, fun below progress ↦ ?_, fun progress n ↦ ?_⟩
  · exact ⟨h.keys_eq, h.nodup, h.versions_ne_nil, h.length_le⟩
  · refine hcalls _ below (fun names t h hlength ↦ ?_) progress
    have := h.length_le
    omega
  · obtain ⟨needed, hneeded⟩ := search_needs (p := i.provider) not_fails_tooManyRounds
      (start roots) progress
    exact hneeded.unlimited n

/-- An application that needs itself and a library. Both versions of the library need the
application, and the newest one also a package that is not there. -/
def tangledIndex : Index where
  packages := .ofList [
    ("app", { versions := .ofList [("1.0.0", { dependencies := ["app", "lib"] })] }),
    ("lib", { versions := .ofList [
      ("1.0.0", { dependencies := ["app>=1"] }),
      ("2.0.0", { dependencies := ["app", "gone"] })] })]

/-- Here some branch has as many pins as there are packages. -/
theorem search_terminates_tangled : ∃ read t, ReadAs [⟨"app", ""⟩] read ∧
    Branch tangledIndex.provider (start read) ["app", "lib"] t ∧
      ["app", "lib"].length = tangledIndex.size ∧
      (∀ name ∈ ["app", "lib"], tangledIndex.versions name ≠ []) ∧
      searchAbove (fun _ _ ↦ .error .noProject) tangledIndex.provider none 3 (start read) {} =
        search tangledIndex.provider none (start read) {} := by
  have heval : (resolve tangledIndex.provider none [⟨"app", ""⟩]).toOption.map
      (fun outcome ↦ outcome.packages.map Package.name) = some ["app", "lib"] := by
    rw [resolve_eq_resolveWithin]
    decide +kernel
  obtain ⟨outcome, h, hnames⟩ := exists_of_map_toOption heval
  obtain ⟨read, t, hread, hvalues, hexplored⟩ := explored_of_resolve h
  obtain ⟨hsteps, _⟩ := hexplored.reaches rfl
  obtain ⟨names, hbranch⟩ := exists_branch hsteps
  obtain ⟨hpins, _, hdepth, _⟩ := search_terminates tangledIndex read
  obtain ⟨hkeys, _, hversions, _⟩ := hpins names t hbranch
  have hnames : names = ["app", "lib"] := by
    rw [← hkeys, ← ((start_sound tangledIndex read).run hsteps).map_name_values, ← hvalues, hnames]
  subst hnames
  exact ⟨read, t, hread, hbranch, rfl, hversions, hdepth (fun _ _ ↦ .error .noProject) {}⟩

end SheetPackages.Resolution
