import SheetPackages.Proofs.Plan.Unpacking

/-!
# Final names of a batch

When the functions of a batch get their final names without a collision, packages of different names
have no function in common, and a function that the workbook has already is owned there by the very
package that brings it. Without aliases, a batch passes exactly if this holds of the names that its
functions have. Which names are reported when functions collide is not described here.
-/

namespace SheetPackages

open Workbook (Storable)

theorem Alias.isNameChar_of_isValid {name : String} (h : isValid name = true) :
    (∃ c rest, name.toList = c :: rest ∧ Dependency.isNameChar c = true) ∧
      (∀ c ∈ name.toList, Dependency.isNameChar c = true ∨ c = '.') ∧
      Function.isReserved name = false := by
  unfold isValid at h
  split at h
  · cases h
  · next c rest hname =>
    simp only [Bool.and_eq_true, Bool.or_eq_true, List.all_eq_true, beq_iff_eq,
      Bool.not_eq_true'] at h
    obtain ⟨⟨hfirst, hrest⟩, hreserved⟩ := h
    have hc : Dependency.isNameChar c = true := by
      rcases hfirst with hletter | rfl
      · simp [Dependency.isNameChar, Text.isAlphanumeric, hletter]
      · rfl
    refine ⟨⟨c, rest, hname, hc⟩, ?_, hreserved⟩
    rw [hname]
    refine List.forall_mem_cons.mpr ⟨.inl hc, fun d hd ↦ ?_⟩
    rcases hrest d hd with (halpha | rfl) | hdot
    · exact .inl (by simp [Dependency.isNameChar, halpha])
    · exact .inl rfl
    · exact .inr hdot

/-- A valid alias can be kept in a list cell. -/
theorem Alias.storable_of_isValid {name : String} (h : isValid name = true) : Storable name := by
  obtain ⟨⟨c, rest, hname, hc⟩, hchars, _⟩ := isNameChar_of_isValid h
  have hblank : ∀ d ∈ name.toList, Text.isBlank d = false := by
    intro d hd
    rcases hchars d hd with hd | rfl
    · exact Dependency.not_isBlank hd
    · rfl
  refine Workbook.storable_of_no_comma (Workbook.startsEntry_iff.mpr ⟨c, rest, hname, hc⟩) ?_ ?_
  · intro hcomma
    rcases hchars ',' hcomma with hname | hdot
    · rw [Workbook.not_isNameChar_comma] at hname
      cases hname
    · cases hdot
  · refine Text.trim_eq_self_iff.mpr ⟨fun d hd ↦ ?_, fun d hd ↦ ?_⟩
    · exact hblank d (List.mem_of_head? hd)
    · exact hblank d (List.mem_of_getLast? hd)

/-- All aliases are valid names of functions. -/
def ValidAliases (renames : RenameMaps) : Prop :=
  ∀ package map, renames.get? package = some map →
    ∀ old new, map.get? old = some new → Alias.isValid new = true

theorem ValidAliases.mapOf {renames : RenameMaps} (h : ValidAliases renames) {package old new : String}
    (hget : (Alias.mapOf renames package).get? old = some new) : Alias.isValid new = true := by
  rw [Alias.mapOf] at hget
  cases hmap : renames.get? package with
  | none =>
    rw [hmap] at hget
    cases hget
  | some map =>
    rw [hmap] at hget
    exact h package map hmap old new hget

theorem ValidAliases.empty : ValidAliases .empty :=
  fun _ _ hmap ↦ nomatch hmap

theorem ValidAliases.addSpec {renames : RenameMaps} (h : ValidAliases renames) {spec : Alias.Spec}
    (hnew : Alias.isValid spec.new = true) : ValidAliases (Alias.addSpec renames spec) := by
  intro package map hmap old new hget
  rw [Alias.addSpec, OrderedMap.get?_insert] at hmap
  split at hmap
  · cases hmap
    rw [OrderedMap.get?_insert] at hget
    split at hget
    · cases hget
      exact hnew
    · exact h.mapOf hget
  · exact h package map hmap old new hget

theorem Alias.isValid_of_parse {s : String} {spec : Spec} (h : Spec.parse s = .ok spec) :
    isValid spec.new = true := by
  simp only [Spec.parse] at h
  split at h
  · cases h
  · split at h
    · cases h
    · split at h
      · cases h
      · split at h
        · cases h
        · next hvalid =>
          cases h
          simpa using hvalid

/-- Aliases that are read from their texts are valid. -/
theorem ValidAliases.of_readMaps {texts : List String} {renames : RenameMaps}
    (h : Alias.readMaps texts = .ok renames) : ValidAliases renames := by
  have hfold (specs : List Alias.Spec) (hspecs : ∀ spec ∈ specs, Alias.isValid spec.new = true)
      (maps : RenameMaps) (hmaps : ValidAliases maps) :
      ValidAliases (specs.foldl Alias.addSpec maps) := by
    induction specs generalizing maps with
    | nil => exact hmaps
    | cons spec rest ih =>
      obtain ⟨hspec, hrest⟩ := List.forall_mem_cons.mp hspecs
      exact ih hrest (Alias.addSpec maps spec) (hmaps.addSpec hspec)
  obtain ⟨specs, hspecs, h⟩ := exists_of_bind_eq_ok h
  cases h
  apply hfold specs _ .empty .empty
  intro spec hspec
  obtain ⟨text, _, hparse⟩ := exists_of_mem_right (mapM_eq_ok_iff.mp hspecs) hspec
  exact Alias.isValid_of_parse hparse

namespace Batch

/-! ## Aliases -/

/-- The functions of a package stand under their final names; of several with one name, the last
one. -/
theorem fst_aliased (map : Formula.RenameMap) (functions : FunctionMap) :
    (aliased map functions).1 =
      .ofList (functions.entries.map fun entry ↦ ((map.get? entry.1).getD entry.1, entry.2)) := by
  have hfold (entries : List (String × Function)) (placed : FunctionMap × List String) :
      (entries.foldl (fun placed entry ↦ place map placed entry.1 entry.2) placed).1 =
        placed.1.insertAll
          (entries.map fun entry ↦ ((map.get? entry.1).getD entry.1, entry.2)) := by
    induction entries generalizing placed with
    | nil => rfl
    | cons entry rest ih => exact ih (place map placed entry.1 entry.2)
  exact hfold functions.entries (.empty, [])

/-- A placed function had some name before, and now has its alias or that name. -/
theorem get?_aliased {map : Formula.RenameMap} {functions : FunctionMap} {new : String}
    {f : Function} (h : (aliased map functions).1.get? new = some f) :
    ∃ old, functions.get? old = some f ∧ new = (map.get? old).getD old := by
  rw [fst_aliased] at h
  rcases OrderedMap.get?_insertAll h with hnone | hmem
  · cases hnone
  · obtain ⟨⟨old, g⟩, hentry, heq⟩ := List.mem_map.mp hmem
    cases heq
    exact ⟨old, OrderedMap.get?_eq_some_iff.mpr hentry, rfl⟩

theorem contains_aliased {map : Formula.RenameMap} {functions : FunctionMap} {old : String}
    (h : functions.contains old = true) :
    (aliased map functions).1.contains ((map.get? old).getD old) = true := by
  rw [fst_aliased, OrderedMap.ofList, OrderedMap.contains_insertAll, List.map_map]
  obtain ⟨entry, hentry, rfl⟩ := List.mem_map.mp (OrderedMap.mem_keys_iff_contains.mpr h)
  exact .inr (List.mem_map_of_mem hentry)

/-- Without aliases every function keeps its name, and so no name is given twice. -/
theorem aliased_empty (functions : FunctionMap) : aliased .empty functions = (functions, []) := by
  have hfold (entries : List (String × Function)) (m : FunctionMap)
      (hnodup : ((m.entries ++ entries).map Prod.fst).Nodup) :
      (entries.foldl (fun placed entry ↦ place .empty placed entry.1 entry.2) (m, [])).2 = [] := by
    induction entries generalizing m with
    | nil => rfl
    | cons entry rest ih =>
      have hplace : place .empty (m, []) entry.1 entry.2 = (m.insert entry.1 entry.2, []) := by
        change (m.insert entry.1 entry.2, if m.contains entry.1 = true then [entry.1] else []) = _
        rw [if_neg (ne_true_of_eq_false (OrderedMap.contains_eq_false_of_nodup hnodup))]
      rw [List.foldl_cons, hplace]
      rw [← OrderedMap.entries_insert_append hnodup] at hnodup
      exact ih _ hnodup
  refine Prod.ext ?_ (hfold functions.entries .empty functions.nodup)
  rw [fst_aliased]
  exact (congrArg OrderedMap.ofList (List.map_id _)).trans (OrderedMap.ofList_entries functions)

/-! ## The check -/

variable {s : Workbook.State} {owners introduced : OrderedMap String}

theorem conflicts_eq_nil_iff {package : String} {found names : List String} :
    conflicts s owners introduced package found names = [] ↔
      found = [] ∧ ∀ name ∈ names, isTaken s owners introduced package name = false := by
  induction names generalizing found with
  | nil => exact (and_iff_left fun _ hmem ↦ absurd hmem List.not_mem_nil).symm
  | cons name rest ih =>
    rw [conflicts, List.foldl_cons]
    refine ih.trans ?_
    rw [List.forall_mem_cons]
    cases htaken : isTaken s owners introduced package name with
    | false => simp
    | true =>
      have hne : (if true = true ∧ name ∉ found then found ++ [name] else found) ≠ [] := by
        by_cases hmem : name ∈ found
        · rw [if_neg fun hboth ↦ hboth.2 hmem]
          exact List.ne_nil_of_mem hmem
        · rw [if_pos ⟨rfl, hmem⟩]
          exact List.append_ne_nil_of_right_ne_nil _ (List.cons_ne_nil name [])
      exact iff_of_false (fun h ↦ hne h.1) fun h ↦ Bool.noConfusion h.2.1

/-- A name that is not taken is new or the package's own, in the batch as in the workbook. -/
theorem isTaken_eq_false_iff {package name : String} :
    isTaken s owners introduced package name = false ↔
      (∀ q, introduced.get? name = some q → q = package) ∧
        (s.functions.contains name = true → owners.get? name = some package) := by
  rw [isTaken, Bool.or_eq_false_iff, and_comm]
  apply and_congr
  · cases introduced.get? name <;> simp
  · cases s.functions.contains name <;> simp

theorem get?_introduced {functions : FunctionMap} {package name : String} :
    (introduced.insertAll (functions.keys.map (·, package))).get? name =
      if functions.contains name = true then some package else introduced.get? name := by
  simp only [← OrderedMap.mem_keys_iff_contains]
  induction functions.keys generalizing introduced with
  | nil => rfl
  | cons key rest ih =>
    change ((introduced.insert key package).insertAll (rest.map (·, package))).get? name = _
    rw [ih, OrderedMap.get?_insert]
    by_cases hkey : name = key <;> by_cases hrest : name ∈ rest <;> simp [hkey, hrest]

/-- A checked batch begins with the first package under final names that were not taken, each of
them given once, and goes on after these names have been introduced. -/
theorem checked_cons_eq_ok_iff {renames : RenameMaps} {v : Unpacked} {rest result : List Unpacked} :
    checked s owners renames introduced (v :: rest) = .ok result ↔
      ∃ functions more, aliased (Alias.mapOf renames v.name) v.functions = (functions, []) ∧
        (∀ name, functions.contains name = true →
          isTaken s owners introduced v.name name = false) ∧
        checked s owners renames (introduced.insertAll (functions.keys.map (·, v.name))) rest =
          .ok more ∧
        result = { v with functions } :: more := by
  rw [checked]
  cases hplaced : aliased (Alias.mapOf renames v.name) v.functions with
  | mk functions twice =>
    simp only [← OrderedMap.mem_keys_iff_contains, Prod.mk.injEq]
    constructor
    · intro h
      split at h
      · cases h
      · next hconflicts =>
        obtain ⟨more, hmore, h⟩ := exists_of_bind_eq_ok h
        obtain ⟨htwice, hfree⟩ := conflicts_eq_nil_iff.mp (Decidable.not_not.mp hconflicts)
        exact ⟨functions, more, ⟨rfl, htwice⟩, hfree, hmore, (Except.ok.inj h).symm⟩
    · rintro ⟨_, more, ⟨rfl, rfl⟩, hfree, hmore, rfl⟩
      have hconflicts := conflicts_eq_nil_iff.mpr ⟨rfl, hfree⟩
      rw [if_neg (not_not.mpr hconflicts), hmore]
      rfl

/-- The functions of the package have final names which it may use in the workbook. -/
structure Named (s : Workbook.State) (owners : OrderedMap String) (renames : RenameMaps)
    (batch : List Unpacked) (u : Unpacked) : Prop where
  origin : ∃ v ∈ batch, u.name = v.name ∧
    u.functions = (aliased (Alias.mapOf renames v.name) v.functions).1
  permitted : ∀ name, u.functions.contains name = true → s.functions.contains name = true →
    owners.get? name = some u.name

theorem Named.cons {renames : RenameMaps} {batch : List Unpacked} {u : Unpacked}
    (h : Named s owners renames batch u) (v : Unpacked) :
    Named s owners renames (v :: batch) u := by
  obtain ⟨w, hw, horigin⟩ := h.origin
  exact ⟨⟨w, List.mem_cons_of_mem v hw, horigin⟩, h.permitted⟩

/-- No function of the one package has the name of a function of the other. -/
def Disjoint (u v : Unpacked) : Prop :=
  ∀ name, u.functions.contains name = true → v.functions.contains name = false

theorem Disjoint.symm {u v : Unpacked} (h : Disjoint u v) : Disjoint v u := by
  intro name hv
  rw [← Bool.not_eq_true]
  intro hu
  rw [h name hu] at hv
  cases hv

/-- Packages of different names have no function in common. -/
def Apart (batch : List Unpacked) : Prop :=
  ∀ u ∈ batch, ∀ v ∈ batch, u.name ≠ v.name → Disjoint u v

theorem Apart.cons {u : Unpacked} {batch : List Unpacked} (h : Apart batch)
    (hu : ∀ v ∈ batch, u.name ≠ v.name → Disjoint u v) : Apart (u :: batch) := by
  intro v hv w hw hne
  rcases List.mem_cons.mp hv with rfl | hlater
  · rcases List.mem_cons.mp hw with rfl | hmore
    · exact absurd rfl hne
    · exact hu w hmore hne
  · rcases List.mem_cons.mp hw with rfl | hmore
    · exact (hu v hlater hne.symm).symm
    · exact h v hlater w hmore hne

/-- A checked batch has the packages of the batch under final names. -/
theorem checked_spec {renames : RenameMaps} {batch result : List Unpacked}
    (h : checked s owners renames introduced batch = .ok result) :
    result.map Unpacked.name = batch.map Unpacked.name ∧
      ∀ u ∈ result, Named s owners renames batch u := by
  induction batch generalizing introduced result with
  | nil =>
    cases h
    exact ⟨rfl, fun _ hmem ↦ absurd hmem List.not_mem_nil⟩
  | cons v rest ih =>
    obtain ⟨functions, more, hplaced, hfree, hmore, rfl⟩ := checked_cons_eq_ok_iff.mp h
    have hfunctions := (congrArg Prod.fst hplaced).symm
    obtain ⟨hnames, hnamed⟩ := ih hmore
    refine ⟨by rw [List.map_cons, List.map_cons, hnames], List.forall_mem_cons.mpr ⟨?_, ?_⟩⟩
    · refine ⟨⟨v, List.mem_cons_self, rfl, hfunctions⟩, fun name hname ↦ ?_⟩
      exact (isTaken_eq_false_iff.mp (hfree name hname)).2
    · exact fun u hu ↦ (hnamed u hu).cons v

/-- The packages of a checked batch are apart, and none uses a name that a package of another name
has introduced. -/
theorem checked_apart {renames : RenameMaps} {batch result : List Unpacked}
    (h : checked s owners renames introduced batch = .ok result) :
    Apart result ∧ ∀ u ∈ result, ∀ name, u.functions.contains name = true →
      ∀ q, introduced.get? name = some q → q = u.name := by
  induction batch generalizing introduced result with
  | nil =>
    cases h
    exact ⟨fun _ hmem ↦ absurd hmem List.not_mem_nil, fun _ hmem ↦ absurd hmem List.not_mem_nil⟩
  | cons v rest ih =>
    obtain ⟨functions, more, _, hfree, hmore, rfl⟩ := checked_cons_eq_ok_iff.mp h
    obtain ⟨hapart, hintroduced⟩ := ih hmore
    have hown (name : String) (hname : functions.contains name = true) :=
      (isTaken_eq_false_iff.mp (hfree name hname)).1
    -- A later package with a function of this one would find the name introduced by this one.
    have hlater (u : Unpacked) (hu : u ∈ more) (name : String)
        (hname : u.functions.contains name = true) (hthis : functions.contains name = true) :
        v.name = u.name := by
      apply hintroduced u hu name hname
      rw [get?_introduced, if_pos hthis]
    constructor
    · apply hapart.cons
      intro u hu hne name hthis
      rw [← Bool.not_eq_true]
      exact fun hname ↦ hne (hlater u hu name hname hthis)
    · refine List.forall_mem_cons.mpr ⟨hown, fun u hu name hname q hget ↦ ?_⟩
      by_cases hthis : functions.contains name = true
      · exact (hown name hthis q hget).trans (hlater u hu name hname hthis)
      · apply hintroduced u hu name hname
        rw [get?_introduced, if_neg hthis, hget]

/-- A checked batch is the batch with all functions under their final names. -/
theorem eq_map_of_checked {renames : RenameMaps} {batch result : List Unpacked}
    (h : checked s owners renames introduced batch = .ok result) :
    result = batch.map fun u ↦
      { u with functions := (aliased (Alias.mapOf renames u.name) u.functions).1 } := by
  induction batch generalizing introduced result with
  | nil =>
    cases h
    rfl
  | cons v rest ih =>
    obtain ⟨functions, more, hplaced, _, hmore, rfl⟩ := checked_cons_eq_ok_iff.mp h
    rw [List.map_cons, hplaced, ← ih hmore]

theorem mem_of_checked {renames : RenameMaps} {batch result : List Unpacked}
    (h : checked s owners renames introduced batch = .ok result) {u : Unpacked} (hu : u ∈ batch) :
    { u with functions := (aliased (Alias.mapOf renames u.name) u.functions).1 } ∈ result := by
  rw [eq_map_of_checked h]
  exact List.mem_map_of_mem hu

/-- A checked batch is checked with the same result for a workbook in which each of its functions
that is there is owned by the package that brings it. -/
theorem checked_again {renames : RenameMaps} {batch result : List Unpacked}
    (h : checked s owners renames introduced batch = .ok result) {t : Workbook.State}
    {others : OrderedMap String}
    (howned : ∀ u ∈ result, ∀ name, u.functions.contains name = true →
      t.functions.contains name = true → others.get? name = some u.name) :
    checked t others renames introduced batch = .ok result := by
  induction batch generalizing introduced result with
  | nil => exact h
  | cons v rest ih =>
    obtain ⟨functions, more, hplaced, hfree, hmore, rfl⟩ := checked_cons_eq_ok_iff.mp h
    obtain ⟨hthis, hlater⟩ := List.forall_mem_cons.mp howned
    refine checked_cons_eq_ok_iff.mpr
      ⟨functions, more, hplaced, fun name hname ↦ ?_, ih hmore hlater, rfl⟩
    obtain ⟨hintroduced, _⟩ := isTaken_eq_false_iff.mp (hfree name hname)
    exact isTaken_eq_false_iff.mpr ⟨hintroduced, hthis name hname⟩

/-- The check fails for no other reason than functions that collide. -/
theorem eq_collision_of_checked {renames : RenameMaps} {batch : List Unpacked} {fault : Fault}
    (h : checked s owners renames introduced batch = .error fault) :
    ∃ package names, fault = .functionCollision package names := by
  induction batch generalizing introduced with
  | nil => cases h
  | cons v rest ih =>
    rw [checked] at h
    simp only at h
    split at h
    · cases h
      exact ⟨_, _, rfl⟩
    · cases hrest : checked s owners renames (introduced.insertAll
          ((aliased (Alias.mapOf renames v.name) v.functions).1.keys.map (·, v.name))) rest with
      | error other =>
        rw [hrest] at h
        cases h
        exact ih hrest
      | ok more =>
        rw [hrest] at h
        cases h

/-! ## Checks without aliases -/

theorem eq_of_checked_empty {batch result : List Unpacked}
    (h : checked s owners .empty introduced batch = .ok result) : result = batch := by
  induction batch generalizing introduced result with
  | nil =>
    cases h
    rfl
  | cons v rest ih =>
    obtain ⟨functions, more, hplaced, _, hmore, rfl⟩ := checked_cons_eq_ok_iff.mp h
    cases (aliased_empty v.functions).symm.trans hplaced
    rw [ih hmore]

theorem checked_empty {batch : List Unpacked} (hapart : Apart batch)
    (hfree : ∀ u ∈ batch, ∀ name, u.functions.contains name = true →
      isTaken s owners introduced u.name name = false) :
    checked s owners .empty introduced batch = .ok batch := by
  induction batch generalizing introduced with
  | nil => rfl
  | cons v rest ih =>
    obtain ⟨hthis, hlater⟩ := List.forall_mem_cons.mp hfree
    have hrest : Apart rest := fun u hu w hw ↦
      hapart u (List.mem_cons_of_mem _ hu) w (List.mem_cons_of_mem _ hw)
    refine checked_cons_eq_ok_iff.mpr
      ⟨v.functions, rest, aliased_empty _, hthis, ih hrest fun u hu name hname ↦ ?_, rfl⟩
    obtain ⟨hintroduced, hpermitted⟩ := isTaken_eq_false_iff.mp (hlater u hu name hname)
    refine isTaken_eq_false_iff.mpr ⟨fun q hq ↦ ?_, hpermitted⟩
    rw [get?_introduced] at hq
    split at hq
    · next hv =>
      -- The name is introduced by `v`, which has no function in common with other packages.
      cases hq
      by_contra hne
      have hnone := hapart v List.mem_cons_self u (List.mem_cons_of_mem _ hu) hne name hv
      rw [hname] at hnone
      cases hnone
    · exact hintroduced q hq

/-- Without aliases a batch passes as it is, provided that its packages are apart and that their
functions are new to the workbook or their own. -/
theorem check_empty_eq_ok_iff {batch result : List Unpacked} :
    check s .empty batch = .ok result ↔ result = batch ∧ Apart batch ∧
      ∀ u ∈ batch, ∀ name, u.functions.contains name = true → s.functions.contains name = true →
        s.lockfile.owner? name = some u.name := by
  constructor
  · intro h
    obtain rfl := eq_of_checked_empty h
    exact ⟨rfl, (checked_apart h).1, fun u hu ↦ ((checked_spec h).2 u hu).permitted⟩
  · rintro ⟨rfl, hapart, howned⟩
    exact checked_empty hapart fun u hu name hname ↦
      isTaken_eq_false_iff.mpr ⟨fun _ hnone ↦ (nomatch hnone), howned u hu name hname⟩

end Batch

end SheetPackages
