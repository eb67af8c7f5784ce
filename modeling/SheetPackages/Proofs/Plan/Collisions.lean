import SheetPackages.Proofs.Plan.Names

/-!
# Collisions in a batch

A batch passes the check exactly if its final names are all different and each of them that the
workbook has is owned there by the package that brings it, so that the order of the packages does
not matter for success. It does matter for the report of a failure: the check stops at the first
package that collides with the workbook or with the packages before it, and names just the final
names of this package that do. The order in which these are named is left open.
-/

namespace SheetPackages

open Workbook (State)

/-- The name under which a function is installed: its alias, or its own name. -/
def Alias.finalName (map : Formula.RenameMap) (function : String) : String :=
  (map.get? function).getD function

/-- The final names of the functions of a package, in their order. -/
def Unpacked.finalNames (u : Unpacked) (renames : RenameMaps) : List String :=
  u.functions.keys.map (Alias.finalName (Alias.mapOf renames u.name))

namespace Batch

/-- Every final name is the name of one function only, and in the workbook of none but its
package. -/
structure CollisionFree (s : State) (renames : RenameMaps) (batch : List Unpacked) : Prop where
  nodup : ∀ u ∈ batch, (u.finalNames renames).Nodup
  apart : ∀ u ∈ batch, ∀ v ∈ batch, ∀ name, name ∈ u.finalNames renames →
    name ∈ v.finalNames renames → u.name = v.name
  owned : ∀ u ∈ batch, ∀ name, name ∈ u.finalNames renames → s.functions.contains name = true →
    s.lockfile.owner? name = some u.name

/-- The final name of a package is held in the workbook by another owner or by nobody, is brought
by a package before, or is shared by two functions of the package. -/
def Offends (s : State) (renames : RenameMaps) (before : List Unpacked) (u : Unpacked)
    (name : String) : Prop :=
  name ∈ u.finalNames renames ∧
    ((s.functions.contains name = true ∧ s.lockfile.owner? name ≠ some u.name) ∨
      (∃ v ∈ before, name ∈ v.finalNames renames) ∨ 1 < (u.finalNames renames).count name)

variable {s : State} {renames : RenameMaps} {before batch other : List Unpacked} {u : Unpacked}
  {introduced : Introduced} {name : String}

namespace CollisionFree

theorem nil : CollisionFree s renames [] where
  nodup _ hu := absurd hu List.not_mem_nil
  apart _ hu := absurd hu List.not_mem_nil
  owned _ hu := absurd hu List.not_mem_nil

theorem mono (h : CollisionFree s renames batch) (hsubset : other ⊆ batch) :
    CollisionFree s renames other where
  nodup u hu := h.nodup u (hsubset hu)
  apart u hu v hv := h.apart u (hsubset hu) v (hsubset hv)
  owned u hu := h.owned u (hsubset hu)

/-- No order is preferred. -/
theorem perm (h : other.Perm batch) :
    CollisionFree s renames other ↔ CollisionFree s renames batch :=
  ⟨fun hfree ↦ hfree.mono h.symm.subset, fun hfree ↦ hfree.mono h.subset⟩

/-- A package can be added behind others when none of its final names offends. -/
theorem concat_iff (hnames : ((before ++ [u]).map Unpacked.name).Nodup) :
    CollisionFree s renames (before ++ [u]) ↔
      CollisionFree s renames before ∧ ∀ name, ¬Offends s renames before u name := by
  have hother : ∀ v ∈ before, v.name ≠ u.name := by
    intro v hv heq
    rw [List.map_append, List.nodup_append] at hnames
    exact hnames.2.2 v.name (List.mem_map_of_mem hv) u.name (by simp) heq
  constructor
  · intro h
    refine ⟨h.mono (List.subset_append_left before [u]), ?_⟩
    rintro name ⟨hname, ⟨hpresent, howner⟩ | ⟨v, hv, hsame⟩ | hcount⟩
    · exact howner (h.owned u (by simp) name hname hpresent)
    · exact hother v hv (h.apart v (by simp [hv]) u (by simp) name hsame hname)
    · have hone := List.nodup_iff_count_le_one.mp (h.nodup u (by simp)) name
      omega
  · rintro ⟨h, hclear⟩
    have hnew : ∀ v ∈ before, ∀ name, name ∈ v.finalNames renames →
        name ∉ u.finalNames renames :=
      fun v hv name hsame hname ↦ hclear name ⟨hname, .inr (.inl ⟨v, hv, hsame⟩)⟩
    constructor
    · refine List.forall_mem_append.mpr ⟨h.nodup, List.forall_mem_singleton.mpr ?_⟩
      rw [List.nodup_iff_count_le_one]
      intro name
      by_contra hcount
      have hmem : name ∈ u.finalNames renames := List.count_pos_iff.mp (by omega)
      exact hclear name ⟨hmem, .inr (.inr (by omega))⟩
    · intro v hv w hw name hvname hwname
      rcases List.mem_append.mp hv with hv | hv
      · rcases List.mem_append.mp hw with hw | hw
        · exact h.apart v hv w hw name hvname hwname
        · rw [List.mem_singleton.mp hw] at hwname
          exact absurd hwname (hnew v hv name hvname)
      · rw [List.mem_singleton.mp hv] at hvname ⊢
        rcases List.mem_append.mp hw with hw | hw
        · exact absurd hvname (hnew w hw name hwname)
        · rw [List.mem_singleton.mp hw]
    · refine List.forall_mem_append.mpr ⟨h.owned, List.forall_mem_singleton.mpr ?_⟩
      intro name hname hpresent
      by_contra howner
      exact hclear name ⟨hname, .inl ⟨hpresent, howner⟩⟩

end CollisionFree

/-! ## The names that a package reports -/

theorem contains_aliased_iff :
    (aliased (Alias.mapOf renames u.name) u.functions).1.contains name = true ↔
      name ∈ u.finalNames renames := by
  rw [fst_aliased, OrderedMap.ofList, OrderedMap.contains_insertAll, List.map_map,
    Unpacked.finalNames, OrderedMap.keys, List.map_map]
  simp [OrderedMap.contains, Function.comp_def, Alias.finalName]

/-- A name is reported as given twice when it was given before, or is given again. -/
theorem mem_twice_iff {map : Formula.RenameMap} {entries : List (String × Function)}
    {placed : FunctionMap × List String} :
    name ∈ (entries.foldl (fun placed entry ↦ place map placed entry.1 entry.2) placed).2 ↔
      name ∈ placed.2 ∨ (if placed.1.contains name then 0 else 1) <
        (entries.map fun entry ↦ Alias.finalName map entry.1).count name := by
  induction entries generalizing placed with
  | nil =>
    have hnone : ¬(if placed.1.contains name then 0 else 1) < 0 := Nat.not_lt_zero _
    simp [hnone]
  | cons entry rest ih =>
    obtain ⟨functions, twice⟩ := placed
    have hplace : place map (functions, twice) entry.1 entry.2 =
        (functions.insert (Alias.finalName map entry.1) entry.2,
          if functions.contains (Alias.finalName map entry.1) then
            twice ++ [Alias.finalName map entry.1] else twice) := rfl
    rw [List.foldl_cons, ih, List.map_cons, hplace]
    simp only [OrderedMap.contains_insert]
    by_cases hname : name = Alias.finalName map entry.1
    · subst hname
      rw [List.count_cons_self]
      cases functions.contains (Alias.finalName map entry.1) <;> simp
    · have hbeq : (name == Alias.finalName map entry.1) = false := by simpa using hname
      rw [hbeq, Bool.false_or, List.count_cons_of_ne (Ne.symm hname)]
      apply or_congr_left
      split
      · simp [hname]
      · exact Iff.rfl

theorem mem_snd_aliased_iff :
    name ∈ (aliased (Alias.mapOf renames u.name) u.functions).2 ↔
      1 < (u.finalNames renames).count name := by
  rw [aliased, mem_twice_iff, Unpacked.finalNames, OrderedMap.keys, List.map_map]
  simp [OrderedMap.contains, Function.comp_def]

theorem mem_conflicts_iff {owners : OrderedMap String} {package : String}
    {found names : List String} :
    name ∈ conflicts s owners introduced package found names ↔
      name ∈ found ∨ name ∈ names ∧ isTaken s owners introduced package name = true := by
  induction names generalizing found with
  | nil => simp [conflicts]
  | cons first rest ih =>
    have hstep : conflicts s owners introduced package found (first :: rest) =
        conflicts s owners introduced package
          (if isTaken s owners introduced package first ∧ first ∉ found then found ++ [first]
            else found) rest := rfl
    rw [hstep, ih, List.mem_cons]
    by_cases htaken : isTaken s owners introduced package first = true ∧ first ∉ found
    · rw [if_pos htaken, List.mem_append, List.mem_singleton]
      by_cases hname : name = first
      · simp [hname, htaken.1]
      · simp [hname]
    · rw [if_neg htaken]
      by_cases hname : name = first
      · subst hname
        by_cases hfound : name ∈ found
        · simp [hfound]
        · simp [hfound, Bool.eq_false_iff.mpr fun h ↦ htaken ⟨h, hfound⟩]
      · simp [hname]

/-- The names that have been introduced are the final names of the packages before. -/
structure Records (renames : RenameMaps) (introduced : Introduced) (before : List Unpacked) :
    Prop where
  sound : ∀ name package, introduced.get? name = some package →
    ∃ v ∈ before, v.name = package ∧ name ∈ v.finalNames renames
  complete : ∀ v ∈ before, ∀ name ∈ v.finalNames renames, (introduced.get? name).isSome = true

namespace Records

theorem nil : Records renames .empty [] where
  sound _ _ h := nomatch h
  complete _ hv := absurd hv List.not_mem_nil

theorem concat (h : Records renames introduced before) (u : Unpacked) :
    Records renames (introduced.insertAll
      ((aliased (Alias.mapOf renames u.name) u.functions).1.keys.map (·, u.name)))
      (before ++ [u]) where
  sound name package hget := by
    rw [get?_introduced] at hget
    split at hget
    · next hname =>
      cases hget
      exact ⟨u, by simp, rfl, contains_aliased_iff.mp hname⟩
    · obtain ⟨v, hv, hfound⟩ := h.sound name package hget
      exact ⟨v, List.mem_append_left _ hv, hfound⟩
  complete := by
    refine List.forall_mem_append.mpr ⟨fun v hv name hname ↦ ?_,
      List.forall_mem_singleton.mpr fun name hname ↦ ?_⟩
    · rw [get?_introduced]
      split
      · rfl
      · exact h.complete v hv name hname
    · rw [get?_introduced, if_pos (contains_aliased_iff.mpr hname)]
      rfl

/-- Another package has introduced a name when it is a final name of a package before. -/
theorem any_ne_iff (h : Records renames introduced before)
    (hother : ∀ v ∈ before, v.name ≠ u.name) :
    (introduced.get? name).any (· != u.name) = true ↔
      ∃ v ∈ before, name ∈ v.finalNames renames := by
  rw [Option.any_eq_true]
  constructor
  · rintro ⟨package, hget, -⟩
    obtain ⟨v, hv, -, hname⟩ := h.sound name package hget
    exact ⟨v, hv, hname⟩
  · rintro ⟨v, hv, hname⟩
    obtain ⟨package, hget⟩ := Option.isSome_iff_exists.mp (h.complete v hv name hname)
    obtain ⟨w, hw, rfl, -⟩ := h.sound name package hget
    exact ⟨w.name, hget, by simpa using hother w hw⟩

/-- What is reported of a package is what offends. -/
theorem mem_conflicts_iff_offends (h : Records renames introduced before)
    (hother : ∀ v ∈ before, v.name ≠ u.name) (name : String) :
    name ∈ conflicts s s.lockfile.owners introduced u.name
        (aliased (Alias.mapOf renames u.name) u.functions).2
        (aliased (Alias.mapOf renames u.name) u.functions).1.keys ↔
      Offends s renames before u name := by
  rw [mem_conflicts_iff, mem_snd_aliased_iff, OrderedMap.mem_keys_iff_contains,
    contains_aliased_iff, isTaken, Bool.or_eq_true, h.any_ne_iff hother, Bool.and_eq_true,
    bne_iff_ne, Offends, ← Lockfile.owner?]
  have hcount : 1 < (u.finalNames renames).count name → name ∈ u.finalNames renames :=
    fun hcount ↦ List.count_pos_iff.mp (by omega)
  constructor
  · rintro (htwice | ⟨hname, htaken⟩)
    · exact ⟨hcount htwice, .inr (.inr htwice)⟩
    · exact ⟨hname, htaken.imp_right .inl⟩
  · rintro ⟨hname, hforeign | hbefore | htwice⟩
    · exact .inr ⟨hname, .inl hforeign⟩
    · exact .inr ⟨hname, .inr hbefore⟩
    · exact .inl htwice

end Records

/-! ## The check -/

/-- From any place of a batch on, the check passes if no package collides, and else stops at the
first one that does. -/
theorem checked_cases (hrecords : Records renames introduced before)
    (hfree : CollisionFree s renames before)
    (hnames : ((before ++ batch).map Unpacked.name).Nodup) :
    (∃ result, checked s s.lockfile.owners renames introduced batch = .ok result) ∧
        CollisionFree s renames (before ++ batch) ∨
      ∃ passed u behind found, batch = passed ++ u :: behind ∧
        CollisionFree s renames (before ++ passed) ∧
        checked s s.lockfile.owners renames introduced batch =
          .error (.functionCollision u.name found) ∧
        found ≠ [] ∧ ∀ name, name ∈ found ↔ Offends s renames (before ++ passed) u name := by
  induction batch generalizing before introduced with
  | nil => exact .inl ⟨⟨[], rfl⟩, by rwa [List.append_nil]⟩
  | cons u rest ih =>
    have hsplit : before ++ u :: rest = before ++ [u] ++ rest := by simp
    have hfirst : ((before ++ [u]).map Unpacked.name).Nodup := by
      rw [hsplit, List.map_append] at hnames
      exact hnames.of_append_left
    have hother : ∀ v ∈ before, v.name ≠ u.name := by
      intro v hv heq
      rw [List.map_append, List.nodup_append] at hfirst
      exact hfirst.2.2 v.name (List.mem_map_of_mem hv) u.name (by simp) heq
    have hreport := hrecords.mem_conflicts_iff_offends (s := s) hother
    rw [checked]
    cases hplaced : aliased (Alias.mapOf renames u.name) u.functions with
    | mk functions twice =>
      simp only [hplaced] at hreport
      have hnext := hrecords.concat u
      rw [hplaced] at hnext
      by_cases hfound : conflicts s s.lockfile.owners introduced u.name twice functions.keys = []
      · -- Nothing offends, so that the rest is checked behind this package.
        have hclear : ∀ name, ¬Offends s renames before u name := by
          intro name hoffends
          have hmem := (hreport name).mpr hoffends
          rw [hfound] at hmem
          cases hmem
        have hgrown : CollisionFree s renames (before ++ [u]) :=
          (CollisionFree.concat_iff hfirst).mpr ⟨hfree, hclear⟩
        simp only [if_neg (not_not.mpr hfound)]
        rcases ih hnext hgrown (hsplit ▸ hnames) with
          ⟨⟨result, hresult⟩, hall⟩ | ⟨passed, v, behind, found, rfl, hpassed, hresult, hrest⟩
        · refine .inl ⟨⟨{ u with functions } :: result, ?_⟩, hsplit ▸ hall⟩
          rw [hresult]
          rfl
        · refine .inr ⟨u :: passed, v, behind, found, rfl, ?_, ?_, ?_⟩
          · simpa using hpassed
          · rw [hresult]
            rfl
          · simpa using hrest
      · refine .inr ⟨[], u, rest, _, rfl, ?_, ?_, hfound, ?_⟩
        · rwa [List.append_nil]
        · simp only [if_pos hfound]
          rfl
        · simpa using hreport

/-- The check of packages of different names passes exactly if no final names collide, in whatever
order the packages are. Otherwise it stops at the first package that collides with the workbook or
with packages before it, and reports what offends of its final names. -/
theorem check_collisions (hnames : (batch.map Unpacked.name).Nodup) :
    ((∃ result, check s renames batch = .ok result) ↔ CollisionFree s renames batch) ∧
      (∀ other : List Unpacked, other.Perm batch →
        ((∃ result, check s renames other = .ok result) ↔
          ∃ result, check s renames batch = .ok result)) ∧
      (¬CollisionFree s renames batch →
        ∃ before u behind found, batch = before ++ u :: behind ∧ CollisionFree s renames before ∧
          check s renames batch = .error (.functionCollision u.name found) ∧ found ≠ [] ∧
          ∀ name, name ∈ found ↔ Offends s renames before u name) := by
  have hok {other : List Unpacked} (hother : (other.map Unpacked.name).Nodup) :
      (∃ result, check s renames other = .ok result) ↔ CollisionFree s renames other := by
    rcases checked_cases (s := s) .nil .nil hother with
      ⟨hresult, hfree⟩ | ⟨before, u, behind, found, rfl, hfree, hresult, hne, hfound⟩
    · exact iff_of_true hresult hfree
    · refine iff_of_false (fun ⟨result, hresult'⟩ ↦ nomatch hresult.symm.trans hresult') ?_
      intro hall
      obtain ⟨name, hname⟩ := List.exists_mem_of_ne_nil found hne
      have hsplit : before ++ u :: behind = before ++ [u] ++ behind := by simp
      have hgrown := hall.mono (hsplit ▸ List.subset_append_left (before ++ [u]) behind)
      have hprefix : ((before ++ [u]).map Unpacked.name).Nodup := by
        rw [hsplit, List.map_append] at hother
        exact hother.of_append_left
      exact ((CollisionFree.concat_iff hprefix).mp hgrown).2 name ((hfound name).mp hname)
  refine ⟨hok hnames, fun other hperm ↦ ?_, fun hcollides ↦ ?_⟩
  · rw [hok hnames, hok ((hperm.map Unpacked.name).nodup_iff.mpr hnames), CollisionFree.perm hperm]
  · rcases checked_cases (s := s) .nil .nil hnames with
      ⟨-, hfree⟩ | ⟨before, u, behind, found, hsplit, hfree, hresult⟩
    · exact absurd hfree hcollides
    · exact ⟨before, u, behind, found, hsplit, hfree, hresult⟩

/-- A workbook with a function that nobody owns and one that a package owns. -/
def halfOwned : State where
  lockfile := ⟨.ofList [("extra", { version := "1.0.0", functions := ["E"] })]⟩
  functions := .ofList [("A", { name := "A", definition := "=1" }),
    ("E", { name := "E", definition := "=2" })]

/-- A package with functions of the given names. -/
def unpackedWith (package : String) (functions : List String) : Unpacked where
  name := package
  version := "1.0.0"
  resolved := ""
  integrity := ""
  dependencies := []
  functions := .ofList (functions.map fun name ↦ (name, { name, definition := "=0" }))

/-- Aliases that are taken in the workbook, by the package before and by each other. -/
def clashing : RenameMaps :=
  .ofList [("extra", .ofList [("F", "A"), ("G", "B"), ("H", "C"), ("I", "C")])]

theorem check_collisions_clashing :
    let batch := [unpackedWith "base" ["B"], unpackedWith "extra" ["D", "E", "F", "G", "H", "I"],
      unpackedWith "late" ["A"]]
    (batch.map Unpacked.name).Nodup ∧
      ∃ before u behind found, batch = before ++ u :: behind ∧
        CollisionFree halfOwned clashing before ∧
        check halfOwned clashing batch = .error (.functionCollision u.name found) ∧ found ≠ [] ∧
        ∀ name, name ∈ found ↔ Offends halfOwned clashing before u name := by
  intro batch
  have hnames : (batch.map Unpacked.name).Nodup := by decide
  have hcollides : ¬CollisionFree halfOwned clashing batch := fun hfree ↦
    absurd (hfree.nodup (unpackedWith "extra" ["D", "E", "F", "G", "H", "I"]) (by simp [batch]))
      (by decide)
  exact ⟨hnames, (check_collisions hnames).2.2 hcollides⟩

/-- The first package passes, the second one reports what offends, and the third one goes
unnoticed. -/
example : check halfOwned clashing [unpackedWith "base" ["B"],
    unpackedWith "extra" ["D", "E", "F", "G", "H", "I"], unpackedWith "late" ["A"]] =
      .error (.functionCollision "extra" ["C", "A", "B"]) :=
  rfl

end Batch

end SheetPackages
