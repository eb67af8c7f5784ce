import SheetPackages.Proofs.Declarations
import SheetPackages.Proofs.Version.Clauses
import SheetPackages.Proofs.Workbook.Fragments
import SheetPackages.Proofs.Workbook.Records

/-!
# Requirement lists that persist

What becomes of the requirements of a project that a workbook keeps. A requirement on versions comes
back with the same comparators unless a fragment behind its first comma begins like a name, as a
bare version does; such a fragment comes back as an entry of its own. The path of an archive must be
tidy besides, since blanks next to commas are lost. The further keys of a project are not described.
-/

namespace SheetPackages

open Text (joined pieces trim trimRight)
open Workbook (Whole startsEntry tidied)

/-! ## Tidied requirements -/

namespace Dependency

variable {entry : String} {d : Dependency} {name : List Char}

theorem startsEntry_append (hne : name ≠ []) (hname : ∀ c ∈ name, isNameChar c = true)
    (rest : List Char) : startsEntry (name ++ rest) = true := by
  obtain ⟨first, more, rfl⟩ := List.exists_cons_of_ne_nil hne
  exact Workbook.startsEntry_iff.mpr ⟨first, more ++ rest, rfl, hname first List.mem_cons_self⟩

/-- The name of a requirement, and what follows it in the trimmed text. -/
theorem exists_trim_of_parse (h : parse entry = .ok d) :
    ∃ rest, trim entry.toList = d.name.toList ++ rest ∧
      (∀ c ∈ rest.head?, isNameChar c = false) ∧ trim rest = d.specifier.toList := by
  unfold parse ofChars at h
  simp only at h
  split at h
  · cases h
  · cases h
    refine ⟨(trim entry.toList).dropWhile isNameChar, ?_, fun c hc ↦ ?_, ?_⟩
    · rw [String.toList_ofList, List.takeWhile_append_dropWhile]
    · have hhead := List.head?_dropWhile_not isNameChar (trim entry.toList)
      rw [Option.mem_def.mp hc] at hhead
      exact hhead
    · rw [String.toList_ofList]

theorem startsEntry_of_parse (h : parse entry = .ok d) :
    startsEntry (trim entry.toList) = true := by
  obtain ⟨hne, hname, _⟩ := of_parse h
  obtain ⟨rest, htrim, _, _⟩ := exists_trim_of_parse h
  rw [htrim]
  exact startsEntry_append hne hname rest

/-- Tidying a requirement tidies its specifier. -/
theorem parse_tidied (h : parse entry = .ok d) :
    parse (String.ofList (tidied (trim entry.toList))) =
      .ok ⟨d.name, String.ofList (tidied d.specifier.toList)⟩ := by
  obtain ⟨hne, hname, _⟩ := of_parse h
  obtain ⟨rest, htrim, hrest, hspecifier⟩ := exists_trim_of_parse h
  have hcomma : ',' ∉ d.name.toList := fun hmem ↦ by
    have hchar := hname ',' hmem
    rw [Workbook.not_isNameChar_comma] at hchar
    cases hchar
  have htidied : ∀ c ∈ (tidied rest).head?, isNameChar c = false := by
    intro c hc
    rcases Workbook.mem_head?_tidied hc with rfl | hc
    · exact Workbook.not_isNameChar_comma
    · exact hrest c hc
  rw [parse, String.toList_ofList, htrim, Workbook.tidied_append hcomma (trimRight_name hname),
    ofChars_name_append_of_head? hne hname htidied, Workbook.trim_tidied, hspecifier,
    String.ofList_toList]

/-- Tidying a specifier tidies the path that it may have. -/
theorem localPath?_tidied (name : String) (specifier : List Char) :
    localPath? ⟨name, String.ofList (tidied specifier)⟩ =
      (localPath? ⟨name, String.ofList specifier⟩).map
        fun path ↦ String.ofList (tidied path.toList) := by
  have hcomma : ',' ∉ localMark.toList := by decide +kernel
  have hend : trimRight localMark.toList = localMark.toList := by decide +kernel
  simp only [localPath?, Text.behind?, String.toList_ofList]
  cases hpath : localMark.toList.isPrefixOf? specifier with
  | some path =>
    have hspecifier := List.isPrefixOf?_eq_some_iff_append_eq.mp hpath
    have htidied : localMark.toList.isPrefixOf? (tidied specifier) = some (tidied path) := by
      rw [List.isPrefixOf?_eq_some_iff_append_eq, ← hspecifier, Workbook.tidied_append hcomma hend]
    rw [htidied]
    simp
  | none =>
    cases htidied : localMark.toList.isPrefixOf? (tidied specifier) with
    | none => rfl
    | some path =>
      -- The mark stands before the first comma, where tidying only cuts blanks off the end.
      have hsplit := List.isPrefixOf?_eq_some_iff_append_eq.mp htidied
      obtain ⟨first, more, hs⟩ := List.exists_cons_of_ne_nil (Text.pieces_ne_nil ',' specifier)
      obtain ⟨piece, others, hp⟩ := List.exists_cons_of_ne_nil (Text.pieces_ne_nil ',' path)
      have hpieces := Text.pieces_append_of_not_mem hcomma hp
      rw [hsplit, Workbook.pieces_tidied hs, List.cons.injEq] at hpieces
      obtain ⟨blank, _, hfirst⟩ := Text.exists_trimRight_append first
      rw [hpieces.1, List.append_assoc] at hfirst
      have hprefix : localMark.toList.isPrefixOf? specifier =
          some (joined ',' ((piece ++ blank) :: more)) := by
        rw [List.isPrefixOf?_eq_some_iff_append_eq, ← Text.joined_append, hfirst, ← hs,
          Text.joined_pieces]
      rw [hpath] at hprefix
      cases hprefix

/-- Tidying a specifier does not change its comparators. -/
theorem range_tidied (name : String) (specifier : List Char) {r : Version.Range} :
    range ⟨name, String.ofList (tidied specifier)⟩ = .ok r ↔
      range ⟨name, String.ofList specifier⟩ = .ok r := by
  simp only [range, Version.Range.parse, String.toList_ofList]
  exact Version.Range.ofChars_eq_ok_iff_of_cleaned (Workbook.fragments_tidied specifier)

end Dependency

/-! ## Entries -/

namespace Project

/-- An entry that is a requirement on an archive or on a range of versions. -/
def IsRequirement (entry : String) : Prop :=
  ∃ d, Dependency.parse entry = .ok d ∧ (d.isLocal = true ∨ ∃ r, d.range = .ok r)

instance (entry : String) : Decidable (IsRequirement entry) :=
  decidable_of_iff
    ((Dependency.parse? entry).any fun d ↦ d.isLocal || d.range.toOption.isSome) <| by
      simp [IsRequirement, Dependency.parse?, Option.any_eq_true, toOption_eq_some_iff,
        Option.isSome_iff_exists]

theorem IsRequirement.startsEntry {entry : String} (h : IsRequirement entry) :
    startsEntry (trim entry.toList) = true := by
  obtain ⟨d, hd, _⟩ := h
  exact Dependency.startsEntry_of_parse hd

/-- The entries ask for the same package, and for the same archive of it or else for versions with
the same comparators. -/
def SameRequirement (entry other : String) : Prop :=
  ∃ d e, Dependency.parse entry = .ok d ∧ Dependency.parse other = .ok e ∧ e.name = d.name ∧
    e.localPath? = d.localPath? ∧ (d.isLocal = false → ∃ r, d.range = .ok r ∧ e.range = .ok r)

/-- The path of the archive, if the entry has one, is tidy. -/
def HasTidyPath (entry : String) : Prop :=
  ∀ path ∈ (Dependency.parse? entry).bind Dependency.localPath?,
    String.ofList (tidied path.toList) = path

/-- The entry comes back from a list cell as the same requirement. -/
def Lasting (entry : String) : Prop :=
  Whole entry ∧ HasTidyPath entry

instance (entry : String) : Decidable (Lasting entry) :=
  inferInstanceAs (Decidable (Whole entry ∧ ∀ path ∈ _, _))

variable {entry : String}

theorem sameRequirement_tidied_iff (h : IsRequirement entry) :
    SameRequirement entry (String.ofList (tidied (trim entry.toList))) ↔ HasTidyPath entry := by
  obtain ⟨d, hd, hkind⟩ := h
  have htidied := Dependency.parse_tidied hd
  have hpath := Dependency.localPath?_tidied d.name d.specifier.toList
  rw [String.ofList_toList] at hpath
  have hread : (Dependency.parse? entry).bind Dependency.localPath? = d.localPath? := by
    rw [Dependency.parse?, hd]
    rfl
  rw [HasTidyPath, hread]
  constructor
  · rintro ⟨d', e, hd', he, _, hsame, _⟩ path hmem
    cases hd.symm.trans hd'
    cases htidied.symm.trans he
    rw [hpath, Option.mem_def.mp hmem, Option.map_some, Option.some.injEq] at hsame
    exact hsame
  · intro htidy
    refine ⟨d, _, hd, htidied, rfl, ?_, fun hremote ↦ ?_⟩
    · rw [hpath]
      cases hlocal : d.localPath? with
      | none => rfl
      | some path => rw [Option.map_some, htidy path hlocal]
    · rcases hkind with hlocal | ⟨r, hr⟩
      · exact absurd (hremote.symm.trans hlocal) Bool.false_ne_true
      · refine ⟨r, hr, (Dependency.range_tidied d.name d.specifier.toList).mpr ?_⟩
        rwa [String.ofList_toList]

/-- A list of entries comes back with as many entries exactly when all of them are whole. -/
theorem length_flatMap_splitList {entries : List String}
    (h : ∀ entry ∈ entries, startsEntry (trim entry.toList) = true) :
    entries.length ≤ (entries.flatMap Workbook.splitList).length ∧
      ((entries.flatMap Workbook.splitList).length = entries.length ↔
        ∀ entry ∈ entries, Whole entry) := by
  induction entries with
  | nil => simp
  | cons entry rest ih =>
    obtain ⟨hentry, hrest⟩ := List.forall_mem_cons.mp h
    obtain ⟨hle, heq⟩ := ih hrest
    obtain ⟨hone, hwhole⟩ := Workbook.length_splitList hentry
    rw [List.flatMap_cons, List.length_append, List.length_cons, List.forall_mem_cons, ← hwhole,
      ← heq]
    omega

theorem forall₂_flatMap_splitList_iff {entries : List String}
    (h : ∀ entry ∈ entries, IsRequirement entry) :
    List.Forall₂ SameRequirement entries (entries.flatMap Workbook.splitList) ↔
      ∀ entry ∈ entries, Lasting entry := by
  have hbegins : ∀ entry ∈ entries, startsEntry (trim entry.toList) = true := fun entry hentry ↦
    (h entry hentry).startsEntry
  have htidied (hwhole : ∀ entry ∈ entries, Whole entry) :
      entries.flatMap Workbook.splitList =
        entries.map fun entry ↦ String.ofList (tidied (trim entry.toList)) := by
    rw [List.map_eq_flatMap]
    exact List.flatMap_congr fun entry hentry ↦
      Workbook.splitList_of_whole (hbegins entry hentry) (hwhole entry hentry)
  have hsame : (∀ entry ∈ entries, SameRequirement entry
      (String.ofList (tidied (trim entry.toList)))) ↔ ∀ entry ∈ entries, HasTidyPath entry :=
    forall₂_congr fun entry hentry ↦ sameRequirement_tidied_iff (h entry hentry)
  constructor
  · intro hall
    have hwhole := (length_flatMap_splitList hbegins).2.mp hall.length_eq.symm
    rw [htidied hwhole, List.forall₂_map_right_iff, List.forall₂_same, hsame] at hall
    exact fun entry hentry ↦ ⟨hwhole entry hentry, hall entry hentry⟩
  · intro hlasting
    rw [htidied fun entry hentry ↦ (hlasting entry hentry).1, List.forall₂_map_right_iff,
      List.forall₂_same, hsame]
    exact fun entry hentry ↦ (hlasting entry hentry).2

end Project

/-! ## Projects -/

namespace Workbook

theorem dependencies_enterKey (p : Project) {key : String} (h : key ≠ "dependencies")
    (value : String) : (enterKey p key value).dependencies = p.dependencies := by
  unfold enterKey
  split
  · rfl
  · rfl
  · rfl
  · exact absurd rfl h
  · rfl

theorem dependencies_foldl_enterRow (entries : List (String × Json))
    (h : ∀ entry ∈ entries, entry.1 ≠ "dependencies") (p : Project) :
    ((entries.map fun (key, value) ↦ [key, cellText value]).foldl enterRow p).dependencies =
      p.dependencies := by
  induction entries generalizing p with
  | nil => rfl
  | cons entry rest ih =>
    obtain ⟨hentry, hrest⟩ := List.forall_mem_cons.mp h
    rw [List.map_cons, List.foldl_cons, ih hrest]
    exact dependencies_enterKey p hentry _

/-- A written project is read, with the requirements that its list cell gives. -/
theorem exists_decodeProject?_encodeProject {p : Project}
    (hextra : p.extra.contains "dependencies" = false) :
    ∃ q, decodeProject? (encodeProject p).definition = some q ∧
      q.dependencies = splitList (joinList p.dependencies) := by
  have hrows : ∀ row ∈ projectGrid p, row ≠ [] := by
    refine List.forall_mem_append.mpr ⟨by simp [projectHeader], fun row hrow ↦ ?_⟩
    obtain ⟨entry, _, rfl⟩ := List.mem_map.mp hrow
    exact List.cons_ne_nil _ _
  have hkeys : ∀ entry ∈ p.extra.entries, entry.1 ≠ "dependencies" := by
    intro entry hentry heq
    have hmem : "dependencies" ∈ p.extra.keys := heq ▸ List.mem_map_of_mem hentry
    rw [OrderedMap.mem_keys_iff_contains, hextra] at hmem
    cases hmem
  rw [decodeProject?, encodeProject, jsonBody?_text, Option.bind_none, Option.none_or,
    Grid.parse_text hrows]
  refine ⟨_, rfl, ?_⟩
  exact dependencies_foldl_enterRow p.extra.entries hkeys _

end Workbook

/-- A project of requirements on archives and on ranges comes back from its function with the same
number of requirements, each the same at its place, exactly when all its entries last. -/
theorem Project.requirements_persist_iff {p : Project}
    (hextra : p.extra.contains "dependencies" = false)
    (hrequirements : ∀ entry ∈ p.dependencies, IsRequirement entry) :
    ∃ q, Workbook.decodeProject? (Workbook.encodeProject p).definition = some q ∧
      (List.Forall₂ SameRequirement p.dependencies q.dependencies ↔
        ∀ entry ∈ p.dependencies, Lasting entry) := by
  obtain ⟨q, hq, hdependencies⟩ := Workbook.exists_decodeProject?_encodeProject hextra
  refine ⟨q, hq, ?_⟩
  rw [hdependencies, Workbook.splitList_joinList_eq_flatMap fun entry hentry ↦
    (hrequirements entry hentry).startsEntry]
  exact forall₂_flatMap_splitList_iff hrequirements

/-- Blanks next to commas do not matter in a range, and neither does a comma in a path when what
follows it begins with no name. -/
theorem Project.requirements_persist_iff_trial :
    let p : Project :=
      { dependencies := ["stats >= 1.0 , , <2.0.0", " text", "lib@file:/a b,/c.gspkg", "pkg 1.0"]
        extra := .ofList [("license", .text "MIT")] }
    ∃ q, Workbook.decodeProject? (Workbook.encodeProject p).definition = some q ∧
      List.Forall₂ SameRequirement p.dependencies q.dependencies := by
  intro p
  have hextra : p.extra.contains "dependencies" = false := by decide +kernel
  have hrequirements : ∀ entry ∈ p.dependencies, IsRequirement entry := by decide +kernel
  have hlasting : ∀ entry ∈ p.dependencies, Lasting entry := by decide +kernel
  obtain ⟨q, hq, hsame⟩ := requirements_persist_iff hextra hrequirements
  exact ⟨q, hq, hsame.mpr hlasting⟩

/-- A bare version behind a comma comes back as an entry of its own. -/
theorem Project.requirements_persist_bare_version :
    let p : Project := { dependencies := ["pkg>=1.0,2.0"] }
    (∀ entry ∈ p.dependencies, IsRequirement entry) ∧
      ∃ q, Workbook.decodeProject? (Workbook.encodeProject p).definition = some q ∧
        q.dependencies = ["pkg>=1.0", "2.0"] ∧
        ¬List.Forall₂ SameRequirement p.dependencies q.dependencies := by
  intro p
  obtain ⟨q, hq, hdependencies⟩ :=
    Workbook.exists_decodeProject?_encodeProject (p := p) (by decide +kernel)
  have htwo : q.dependencies = ["pkg>=1.0", "2.0"] := by
    rw [hdependencies]
    decide +kernel
  refine ⟨by decide +kernel, q, hq, htwo, fun hsame ↦ ?_⟩
  rw [htwo] at hsame
  cases hsame.length_eq

end SheetPackages
