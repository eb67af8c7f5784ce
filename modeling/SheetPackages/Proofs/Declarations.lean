import SheetPackages.Package
import SheetPackages.Plan.Install
import SheetPackages.Plan.Removal
import SheetPackages.Proofs.Workbook.Lists

/-!
# Declared requirements

Requirements that a workbook can keep: their texts are storable in a list cell and are read as the
requirements they were. In a project that keeps only such requirements, at most one for a package,
adding and dropping requirements by their texts is the same as doing so by their names.
-/

namespace SheetPackages

open Workbook (Storable)

/-! ## Texts of requirements -/

theorem Dependency.trimRight_name {name : List Char} (hname : ∀ c ∈ name, isNameChar c = true) :
    Text.trimRight name = name :=
  Text.trimRight_eq_self fun c hc ↦ not_isBlank (hname c (List.mem_of_getLast? hc))

/-- The name that is read takes what it can of the text behind it. -/
theorem Dependency.ofChars_name_append {name : List Char} (hne : name ≠ [])
    (hname : ∀ c ∈ name, isNameChar c = true) (rest : List Char) :
    ofChars (name ++ rest) =
      .ok ⟨String.ofList (name ++ (Text.trimRight rest).takeWhile isNameChar),
        String.ofList (Text.trim ((Text.trimRight rest).dropWhile isNameChar))⟩ := by
  obtain ⟨first, more, rfl⟩ := List.exists_cons_of_ne_nil hne
  have hhead : ∀ c ∈ (first :: more ++ rest).head?, Text.isBlank c = false := by
    intro c hc
    cases hc
    exact not_isBlank (hname _ List.mem_cons_self)
  have htrim : Text.trim (first :: more ++ rest) = first :: more ++ Text.trimRight rest := by
    rw [Text.trim, Text.trimLeft_eq_self hhead, Text.trimRight_append (trimRight_name hname)]
  unfold ofChars
  simp only [htrim]
  rw [List.takeWhile_append_of_pos hname, List.dropWhile_append_of_pos hname]
  rfl

/-- A name ends where a character follows that names do not have. -/
theorem Dependency.ofChars_name_append_of_head? {name : List Char} (hne : name ≠ [])
    (hname : ∀ c ∈ name, isNameChar c = true) {rest : List Char}
    (hrest : ∀ c ∈ rest.head?, isNameChar c = false) :
    ofChars (name ++ rest) = .ok ⟨String.ofList name, String.ofList (Text.trim rest)⟩ := by
  have hends : (Text.trimRight rest).takeWhile isNameChar = [] ∧
      (Text.trimRight rest).dropWhile isNameChar = Text.trimRight rest := by
    cases hcut : Text.trimRight rest with
    | nil => exact ⟨rfl, rfl⟩
    | cons c more =>
      have hc := hrest c (Text.mem_head?_of_mem_head?_trimRight (by rw [hcut]; rfl))
      simp [hc]
  rw [ofChars_name_append hne hname, hends.1, hends.2, List.append_nil, Text.trim_trimRight]

/-- What is read of a text: a name of name characters, and a trimmed specifier. -/
theorem Dependency.of_parse {s : String} {d : Dependency} (h : parse s = .ok d) :
    d.name.toList ≠ [] ∧ (∀ c ∈ d.name.toList, isNameChar c = true) ∧
      Text.trim d.specifier.toList = d.specifier.toList := by
  unfold parse ofChars at h
  simp only at h
  split at h
  · cases h
  · next hne =>
    cases h
    simp only [String.toList_ofList, Text.trim_trim, and_true]
    exact ⟨hne, fun c hc ↦ List.all_eq_true.mp List.all_takeWhile c hc⟩

/-- A trimmed requirement begins with the name of the package that it is read to be on. -/
theorem Locked.nameOf_trimmed {text : String} {d : Dependency}
    (h : Dependency.parse text = .ok d) : nameOf (Text.trimmed text) = d.name := by
  unfold Dependency.parse Dependency.ofChars at h
  simp only at h
  split at h
  · cases h
  · cases h
    rw [nameOf, Text.trimmed, String.toList_ofList]

/-- The specifier is empty or begins with something that cannot belong to a name. -/
def Dependency.Separable (d : Dependency) : Prop :=
  ∀ c ∈ d.specifier.toList.head?, isNameChar c = false

theorem Dependency.parse_text {d : Dependency} (hne : d.name.toList ≠ [])
    (hname : ∀ c ∈ d.name.toList, isNameChar c = true) (hseparable : d.Separable)
    (htrim : Text.trim d.specifier.toList = d.specifier.toList) : parse d.text = .ok d := by
  rw [parse, text, String.toList_append, ofChars_name_append_of_head? hne hname hseparable, htrim,
    String.ofList_toList, String.ofList_toList]

/-- A requirement whose text a list cell keeps, and which is read from it as it was. -/
structure Dependency.Recorded (d : Dependency) : Prop where
  storable : Storable d.text
  parses : parse d.text = .ok d

theorem Dependency.recorded_of_parse {s : String} {d : Dependency} (h : parse s = .ok d)
    (hstorable : Storable d.text) (hseparable : d.Separable) : d.Recorded := by
  obtain ⟨hne, hname, htrim⟩ := of_parse h
  exact ⟨hstorable, parse_text hne hname hseparable htrim⟩

/-- The mark of a path cannot belong to a name. -/
theorem Dependency.head?_onArchive (name path : String) :
    (onArchive name path).specifier.toList.head? = some '@' := by
  rw [onArchive, String.toList_append]
  rfl

theorem Dependency.separable_onArchive (name path : String) : (onArchive name path).Separable := by
  intro c hc
  rw [head?_onArchive, Option.mem_some_iff] at hc
  rw [← hc]
  decide

theorem Dependency.recorded_onArchive {name path : String} (hname : Package.isValidName name = true)
    (hstorable : Storable (onArchive name path).text) : (onArchive name path).Recorded := by
  have hvalid : name.toList ≠ [] ∧ ∀ c ∈ name.toList, isNameChar c = true := by
    simp only [Package.isValidName, Bool.and_eq_true, decide_eq_true_eq, List.all_eq_true] at hname
    exact ⟨hname.1.1.1, hname.1.1.2⟩
  have htrim : Text.trim (onArchive name path).specifier.toList =
      (onArchive name path).specifier.toList := by
    refine Text.trim_eq_self_iff.mpr ⟨fun c hc ↦ ?_, fun c hc ↦ ?_⟩
    · rw [head?_onArchive, Option.mem_some_iff] at hc
      rw [← hc]
      decide
    · refine (Text.trim_eq_self_iff.mp hstorable.trim_eq).2 c ?_
      rw [text, String.toList_append, List.getLast?_append, Option.mem_def.mp hc, Option.some_or]
      rfl
  exact ⟨hstorable, parse_text hvalid.1 hvalid.2 (separable_onArchive name path) htrim⟩

/-! ## Projects -/

namespace Project

/-- The requirements of the project are `ds`, which are recorded, at most one for a package. -/
structure Records (p : Project) (ds : List Dependency) : Prop where
  dependencies : p.dependencies = ds.map Dependency.text
  recorded : ∀ d ∈ ds, d.Recorded
  nodup : (ds.map Dependency.name).Nodup

/-- A project that a workbook can keep: its requirements are recorded, and it has no further
keys. -/
structure Orderly (p : Project) : Prop where
  extra : p.extra = .empty
  records : ∃ ds, p.Records ds

theorem names_text {d : Dependency} (h : d.Recorded) (name : String) :
    names name d.text = (d.name == name) := by
  rw [names, Dependency.parse?, h.parses]
  rfl

/-- Putting the text of a requirement among others puts the requirement among them. -/
theorem putEntry_map_text (d : Dependency) {ds : List Dependency} (h : ∀ e ∈ ds, e.Recorded) :
    ∃ es : List Dependency,
      putEntry d.name d.text (ds.map Dependency.text) = es.map Dependency.text ∧
      (∀ e ∈ es, e = d ∨ e ∈ ds) ∧
      (es.map Dependency.name = ds.map Dependency.name ∨ d.name ∉ ds.map Dependency.name ∧
        es.map Dependency.name = ds.map Dependency.name ++ [d.name]) := by
  induction ds with
  | nil => exact ⟨[d], rfl, by simp, by simp⟩
  | cons first rest ih =>
    obtain ⟨hfirst, hrest⟩ := List.forall_mem_cons.mp h
    rw [List.map_cons, putEntry, names_text hfirst]
    by_cases heq : first.name = d.name
    · refine ⟨d :: rest, by simp [heq], fun e he ↦ ?_, .inl (by simp [heq])⟩
      exact (List.mem_cons.mp he).imp_right (List.mem_cons_of_mem _)
    · obtain ⟨es, htexts, hmem, hnames⟩ := ih hrest
      refine ⟨first :: es, by simp [heq, htexts], ?_, ?_⟩
      · refine List.forall_mem_cons.mpr ⟨.inr List.mem_cons_self, fun e he ↦ ?_⟩
        exact (hmem e he).imp_right (List.mem_cons_of_mem _)
      · rcases hnames with hsame | ⟨hnew, hmore⟩
        · exact .inl (by simp [hsame])
        · have hnone : d.name ∉ (first :: rest).map Dependency.name :=
            List.not_mem_cons_of_ne_of_not_mem (Ne.symm heq) hnew
          exact .inr ⟨hnone, by simp [hmore]⟩

theorem Orderly.upsert {p : Project} (h : p.Orderly) {d : Dependency} (hd : d.Recorded) :
    (p.upsert d).Orderly := by
  obtain ⟨ds, hds⟩ := h.records
  obtain ⟨es, htexts, hmem, hnames⟩ := putEntry_map_text d hds.recorded
  refine ⟨h.extra, es, ?_, fun e he ↦ ?_, ?_⟩
  · rw [← htexts, ← hds.dependencies]
    rfl
  · rcases hmem e he with rfl | he
    · exact hd
    · exact hds.recorded e he
  · rcases hnames with hsame | ⟨hnew, hmore⟩
    · rw [hsame]
      exact hds.nodup
    · rw [hmore]
      exact List.nodup_append.mpr ⟨hds.nodup, by simp, by
        intro a ha b hb hab
        rw [List.mem_singleton.mp hb] at hab
        exact hnew (hab ▸ ha)⟩

theorem Orderly.upsertAll {p : Project} (h : p.Orderly) {ds : List Dependency}
    (hds : ∀ d ∈ ds, d.Recorded) : (ds.foldl Project.upsert p).Orderly := by
  induction ds generalizing p with
  | nil => exact h
  | cons d rest ih =>
    obtain ⟨hd, hrest⟩ := List.forall_mem_cons.mp hds
    exact ih (h.upsert hd) hrest

theorem Orderly.remove {p : Project} (h : p.Orderly) (name : String) : (p.remove name).Orderly := by
  obtain ⟨ds, hds⟩ := h.records
  have hfilter : (ds.map Dependency.text).filter (!names name ·) =
      (ds.filter fun d ↦ !(d.name == name)).map Dependency.text := by
    rw [List.filter_map]
    congr 1
    refine List.filter_congr fun d hd ↦ ?_
    rw [Function.comp_apply, names_text (hds.recorded d hd)]
  refine ⟨h.extra, ds.filter fun d ↦ !(d.name == name), ?_, fun d hd ↦ ?_, ?_⟩
  · rw [← hfilter, ← hds.dependencies]
    rfl
  · exact hds.recorded d (List.mem_filter.mp hd).1
  · exact hds.nodup.sublist (List.filter_sublist.map _)

theorem Orderly.withoutAll {p : Project} (h : p.Orderly) (names : List String) :
    (Plan.withoutAll p names).Orderly := by
  induction names generalizing p with
  | nil => exact h
  | cons name rest ih => exact ih (h.remove name)

theorem orderly_initial : Plan.initialProject.Orderly :=
  ⟨rfl, [], rfl, fun _ h ↦ absurd h List.not_mem_nil, List.nodup_nil⟩

theorem Records.requirements {p : Project} {ds : List Dependency} (h : p.Records ds) :
    p.requirements = .ok ds := by
  rw [Project.requirements, h.dependencies, Dependency.readAll]
  have hrecorded := h.recorded
  clear h
  induction ds with
  | nil => rfl
  | cons d rest ih =>
    obtain ⟨hd, hrest⟩ := List.forall_mem_cons.mp hrecorded
    rw [List.map_cons, List.mapM_cons, ih hrest, Dependency.read, hd.parses]
    rfl

theorem Orderly.storable {p : Project} (h : p.Orderly) :
    ∀ text ∈ p.dependencies, Storable text := by
  obtain ⟨ds, hds⟩ := h.records
  rw [hds.dependencies]
  intro text htext
  obtain ⟨d, hd, rfl⟩ := List.mem_map.mp htext
  exact (hds.recorded d hd).storable

end Project

end SheetPackages
