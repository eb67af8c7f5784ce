import Mathlib.Data.List.Induction
import Mathlib.Data.List.Nodup
import SheetPackages.Proofs.Project.Persistence
import SheetPackages.Proofs.Project.Upserting

/-!
# Requirements put in again

Putting requirements into a project a second time changes nothing, although the first ones of
several requirements on a package are replaced by the last one, and are put in its place for a while
when the list is gone through again. Each requirement must be read from its text as it was; the
other entries of the project may be anything. The same holds when the project has been written and
read in between, if its list cell keeps them. What becomes of the further keys is not described.
-/

namespace SheetPackages

namespace Project

/-! ## Single entries -/

variable {name other : String} {entry : String} {entries : List String}

theorem names_iff {e : String} : names name e = true ↔
    (Dependency.parse? e).map Dependency.name = some name := by
  rw [names]
  cases Dependency.parse? e with
  | none => simp
  | some d => simp

theorem names_eq_false_of_ne {e : String} (h : names name e = true) (hne : other ≠ name) :
    names other e = false := by
  rw [names_iff] at h
  rw [← Bool.not_eq_true, names_iff, h, Option.some.injEq]
  exact hne.symm

/-- The entry of a package is replaced by the last one that is put in. -/
theorem putEntry_putEntry {last : String} (h : names name entry = true) :
    putEntry name last (putEntry name entry entries) = putEntry name last entries := by
  induction entries with
  | nil => simp [putEntry, h]
  | cons e rest ih =>
    by_cases he : names name e = true
    · rw [putEntry, if_pos he, putEntry, if_pos h, putEntry, if_pos he]
    · rw [putEntry, if_neg he, putEntry, if_neg he, putEntry, if_neg he, ih]

/-- Entries of two packages may be put in in either order when the one package has an entry. -/
theorem putEntry_comm {text : String} (htext : names other text = true)
    (hentry : names name entry = true) (hne : other ≠ name)
    (hthere : entries.any (names name) = true) :
    putEntry name entry (putEntry other text entries) =
      putEntry other text (putEntry name entry entries) := by
  induction entries with
  | nil => cases hthere
  | cons e rest ih =>
    by_cases he : names name e = true
    · have hother := names_eq_false_of_ne he hne
      have hnew := names_eq_false_of_ne hentry hne
      simp [putEntry, he, hother, hnew]
    · by_cases hother : names other e = true
      · have hname := names_eq_false_of_ne htext hne.symm
        simp [putEntry, he, hother, hname]
      · have hrest : rest.any (names name) = true := by simpa [he] using hthere
        simp [putEntry, he, hother, ih hrest]

theorem any_putEntry (h : names name entry = true) :
    (putEntry name entry entries).any (names other) = true ↔
      other = name ∨ entries.any (names other) = true := by
  have hentry : names other entry = true ↔ other = name := by
    by_cases heq : other = name
    · simp [heq, h]
    · simp [heq, names_eq_false_of_ne h heq]
  induction entries with
  | nil => simp [putEntry, hentry]
  | cons e rest ih =>
    by_cases he : names name e = true
    · by_cases heq : other = name
      · simp [putEntry, he, heq, h]
      · simp [putEntry, he, hentry, heq, names_eq_false_of_ne he heq]
    · simp [putEntry, he, ih, or_left_comm]

theorem forall_mem_putEntry {P : String → Prop} (h : ∀ e ∈ entries, P e) (hentry : P entry) :
    ∀ e ∈ putEntry name entry entries, P e := by
  induction entries with
  | nil => exact List.forall_mem_singleton.mpr hentry
  | cons e rest ih =>
    obtain ⟨he, hrest⟩ := List.forall_mem_cons.mp h
    rw [putEntry]
    split
    · exact List.forall_mem_cons.mpr ⟨hentry, hrest⟩
    · exact List.forall_mem_cons.mpr ⟨he, ih hrest⟩

/-- The packages on which the entries are requirements. -/
def packages (entries : List String) : List String :=
  entries.filterMap fun e ↦ (Dependency.parse? e).map Dependency.name

theorem packages_putEntry (h : names name entry = true) : packages (putEntry name entry entries) =
    if name ∈ packages entries then packages entries else packages entries ++ [name] := by
  have hentry := names_iff.mp h
  induction entries with
  | nil => simp [packages, putEntry, hentry]
  | cons e rest ih =>
    by_cases he : names name e = true
    · have hsame := names_iff.mp he
      simp [packages, putEntry, he, hentry, hsame]
    · have hdifferent : (Dependency.parse? e).map Dependency.name ≠ some name := mt names_iff.mpr he
      rw [putEntry, if_neg he, packages, List.filterMap_cons]
      rw [packages] at ih
      cases hname : (Dependency.parse? e).map Dependency.name with
      | none =>
        have hskip : packages (e :: rest) = packages rest := List.filterMap_cons_none hname
        rw [hskip]
        exact ih
      | some first =>
        have hcons : packages (e :: rest) = first :: packages rest := List.filterMap_cons_some hname
        have hne : name ≠ first := fun heq ↦ hdifferent (heq ▸ hname)
        rw [hcons]
        simp only [ih, List.mem_cons, hne, false_or]
        split
        · rfl
        · rfl

/-- The packages of requirements that are read. -/
theorem map_name_of_requirements {p : Project} {ds : List Dependency}
    (h : p.requirements = .ok ds) : ds.map Dependency.name = packages p.dependencies := by
  have hread := requirements_eq_ok_iff.mp h
  rw [packages]
  clear h
  generalize p.dependencies = entries at hread ⊢
  induction hread with
  | nil => rfl
  | @cons e d rest others he _ ih =>
    have hname : (Dependency.parse? e).map Dependency.name = some d.name := by
      rw [Dependency.parse?, he]
      rfl
    rw [List.map_cons, ih]
    exact (List.filterMap_cons_some (by exact hname)).symm

/-! ## Several requirements -/

/-- The entries with some requirements put in, one after the other. -/
def putAll (ds : List Dependency) (entries : List String) : List String :=
  ds.foldl (fun entries d ↦ putEntry d.name d.text entries) entries

variable {d : Dependency} {ds : List Dependency}

theorem putAll_cons (d : Dependency) (ds : List Dependency) (entries : List String) :
    putAll (d :: ds) entries = putAll ds (putEntry d.name d.text entries) :=
  rfl

theorem putAll_concat (ds : List Dependency) (d : Dependency) (entries : List String) :
    putAll (ds ++ [d]) entries = putEntry d.name d.text (putAll ds entries) :=
  List.foldl_append

theorem names_self (h : d.Recorded) : names d.name d.text = true := by
  rw [names_text h, beq_self_eq_true]

theorem any_putAll (h : ∀ d ∈ ds, d.Recorded) :
    (putAll ds entries).any (names name) = true ↔
      (∃ d ∈ ds, d.name = name) ∨ entries.any (names name) = true := by
  induction ds generalizing entries with
  | nil => simp [putAll]
  | cons d rest ih =>
    obtain ⟨hd, hrest⟩ := List.forall_mem_cons.mp h
    rw [putAll_cons, ih hrest, any_putEntry (names_self hd), List.exists_mem_cons_iff, or_assoc,
      or_left_comm, eq_comm]

theorem forall_mem_putAll {P : String → Prop} (h : ∀ e ∈ entries, P e)
    (hds : ∀ d ∈ ds, P d.text) : ∀ e ∈ putAll ds entries, P e := by
  induction ds generalizing entries with
  | nil => exact h
  | cons d rest ih =>
    obtain ⟨hd, hrest⟩ := List.forall_mem_cons.mp hds
    exact ih (forall_mem_putEntry h hd) hrest

theorem nodup_packages_putAll (hds : ∀ d ∈ ds, d.Recorded) (h : (packages entries).Nodup) :
    (packages (putAll ds entries)).Nodup := by
  induction ds generalizing entries with
  | nil => exact h
  | cons d rest ih =>
    obtain ⟨hd, hrest⟩ := List.forall_mem_cons.mp hds
    apply ih hrest
    rw [packages_putEntry (names_self hd)]
    split
    · exact h
    · next hnew => exact h.append (List.nodup_singleton _) (List.disjoint_singleton.mpr hnew)

/-- It does not matter what stands in the place of a requirement that is put in last. -/
theorem putEntry_putAll_putEntry (hd : d.Recorded) (hds : ∀ e ∈ ds, e.Recorded)
    (hthere : entries.any (names d.name) = true) :
    putEntry d.name d.text (putAll ds (putEntry d.name d.text entries)) =
      putEntry d.name d.text (putAll ds entries) := by
  induction ds generalizing entries with
  | nil => exact putEntry_putEntry (names_self hd)
  | cons e rest ih =>
    obtain ⟨he, hrest⟩ := List.forall_mem_cons.mp hds
    rw [putAll_cons, putAll_cons]
    by_cases heq : e.name = d.name
    · have hsame : names e.name d.text = true := by rw [heq, names_self hd]
      rw [heq] at hsame ⊢
      rw [putEntry_putEntry hsame]
    · rw [← putEntry_comm (names_self he) (names_self hd) heq hthere]
      exact ih hrest ((any_putEntry (names_self he)).mpr (.inr hthere))

/-- A requirement on a further package may be put in before or after those that have entries. -/
theorem putAll_putEntry (hd : d.Recorded) (hds : ∀ e ∈ ds, e.Recorded)
    (hne : ∀ e ∈ ds, e.name ≠ d.name) (hthere : ∀ e ∈ ds, entries.any (names e.name) = true) :
    putAll ds (putEntry d.name d.text entries) = putEntry d.name d.text (putAll ds entries) := by
  induction ds generalizing entries with
  | nil => rfl
  | cons e rest ih =>
    obtain ⟨he, hrest⟩ := List.forall_mem_cons.mp hds
    obtain ⟨hdifferent, hothers⟩ := List.forall_mem_cons.mp hne
    obtain ⟨hold, holds⟩ := List.forall_mem_cons.mp hthere
    rw [putAll_cons, putAll_cons,
      putEntry_comm (names_self hd) (names_self he) hdifferent.symm hold]
    exact ih hrest hothers fun f hf ↦ (any_putEntry (names_self he)).mpr (.inr (holds f hf))

/-- Requirements that have been put in are not changed by being put in again. -/
theorem putAll_putAll (h : ∀ d ∈ ds, d.Recorded) (entries : List String) :
    putAll ds (putAll ds entries) = putAll ds entries := by
  induction ds using List.reverseRecOn with
  | nil => rfl
  | append_singleton ds d ih =>
    obtain ⟨hds, hd⟩ := List.forall_mem_append.mp h
    replace hd := List.forall_mem_singleton.mp hd
    have hsame := ih hds
    rw [putAll_concat, putAll_concat]
    by_cases hthere : (putAll ds entries).any (names d.name) = true
    · rw [putEntry_putAll_putEntry hd hds hthere, hsame]
    · have hnew : ∀ e ∈ ds, e.name ≠ d.name := fun e he heq ↦
        hthere ((any_putAll hds).mpr (.inl ⟨e, he, heq⟩))
      have hall : ∀ e ∈ ds, (putAll ds entries).any (names e.name) = true := fun e he ↦
        (any_putAll hds).mpr (.inl ⟨e, he, rfl⟩)
      rw [putAll_putEntry hd hds hnew hall, hsame, putEntry_putEntry (names_self hd)]

/-- A project with some requirements put in differs from it in its entries alone. -/
theorem foldl_upsert (ds : List Dependency) (p : Project) :
    ds.foldl upsert p = { p with dependencies := putAll ds p.dependencies } := by
  induction ds generalizing p with
  | nil => rfl
  | cons d rest ih => exact ih (p.upsert d)

/-! ## Projects that are read -/

/-- No further key of the project has a place of its own. -/
def Further (p : Project) : Prop :=
  ∀ key ∈ p.extra.keys, key ∉ fieldNames

theorem Further.contains {p : Project} (h : p.Further) :
    p.extra.contains "dependencies" = false := by
  rw [← Bool.not_eq_true, ← OrderedMap.mem_keys_iff_contains]
  exact fun hmem ↦ h "dependencies" hmem (by decide)

theorem further_of_ofDocument? {doc : Json.Document} {p : Project} (h : ofDocument? doc = some p) :
    p.Further := by
  unfold ofDocument? at h
  split at h
  · next members =>
    simp only [Option.bind_eq_bind, Option.bind_eq_some_iff] at h
    obtain ⟨fields, _, name, _, version, _, description, _, dependencies, _, extra, hextra, h⟩ := h
    cases h
    intro key hkey
    obtain ⟨value, hvalue⟩ := OrderedMap.mem_keys_iff.mp hkey
    rcases OrderedMap.get?_insertAll hvalue with hnone | hmem
    · cases hnone
    · obtain ⟨entries, _, hread⟩ := Option.bind_eq_some_iff.mp hextra
      obtain ⟨entry, hentry, hvalue⟩ := exists_of_mem_mapM hread hmem
      obtain ⟨read, _, hvalue⟩ := Option.bind_eq_some_iff.mp hvalue
      cases hvalue
      simpa using (List.mem_filter.mp hentry).2
  · cases h

end Project

namespace Workbook

theorem further_enterKey {p : Project} (h : p.Further) (key value : String) :
    (enterKey p key value).Further := by
  unfold enterKey
  split
  · exact h
  · exact h
  · exact h
  · exact h
  · next hname hversion hdescription hdependencies =>
    intro other hother
    rw [OrderedMap.mem_keys_iff_contains, OrderedMap.contains_insert, Bool.or_eq_true, beq_iff_eq]
      at hother
    rcases hother with rfl | hold
    · simpa [Project.fieldNames] using ⟨hname, hversion, hdescription, hdependencies⟩
    · exact h other (OrderedMap.mem_keys_iff_contains.mpr hold)

theorem further_foldl_enterRow (rows : Grid) {p : Project} (h : p.Further) :
    (rows.foldl enterRow p).Further := by
  induction rows generalizing p with
  | nil => exact h
  | cons row rest ih =>
    apply ih
    unfold enterRow
    split
    · exact further_enterKey h _ _
    · exact h

/-- Whatever a project is read from, it has no further key with a place of its own. -/
theorem further_of_decodeProject? {definition : String} {p : Project}
    (h : decodeProject? definition = some p) : p.Further := by
  rw [decodeProject?, Option.or_eq_some_iff] at h
  rcases h with hjson | ⟨_, hgrid⟩
  · obtain ⟨text, _, h⟩ := Option.bind_eq_some_iff.mp hjson
    obtain ⟨doc, _, hdoc⟩ := Option.bind_eq_some_iff.mp h
    exact Project.further_of_ofDocument? hdoc
  · unfold projectOfGrid? at hgrid
    split at hgrid
    · cases hgrid
      exact further_foldl_enterRow _ fun _ hkey ↦ absurd hkey List.not_mem_nil
    · cases hgrid

end Workbook

/-- When a project with requirements put in is written and read, the same requirements put in once
more change nothing. -/
theorem Project.exists_read_upserted {p : Project} (hfurther : p.Further)
    (hstorable : ∀ text ∈ p.dependencies, Workbook.Storable text) {ds : List Dependency}
    (hds : ∀ d ∈ ds, d.Recorded) :
    ∃ q, Workbook.decodeProject? (Workbook.encodeProject (ds.foldl upsert p)).definition = some q ∧
      (ds.foldl upsert q).dependencies = (ds.foldl upsert p).dependencies := by
  rw [foldl_upsert ds p]
  have hcontains : ({ p with dependencies := putAll ds p.dependencies } : Project).extra.contains
      "dependencies" = false := hfurther.contains
  obtain ⟨q, hq, hdependencies⟩ := Workbook.exists_decodeProject?_encodeProject hcontains
  refine ⟨q, hq, ?_⟩
  have hput : ∀ text ∈ putAll ds p.dependencies, Workbook.Storable text :=
    forall_mem_putAll hstorable fun d hd ↦ (hds d hd).storable
  calc
    (ds.foldl upsert q).dependencies = putAll ds q.dependencies := by rw [foldl_upsert]
    _ = putAll ds (putAll ds p.dependencies) := by
      rw [hdependencies, Workbook.splitList_joinList hput]
    _ = putAll ds p.dependencies := putAll_putAll hds p.dependencies

end SheetPackages
