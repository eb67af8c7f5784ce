import SheetPackages.Proofs.Lockfile.Closure
import SheetPackages.Proofs.Lockfile.Rounds
import SheetPackages.Proofs.Project.Persistence
import SheetPackages.Proofs.Workbook.Entries

/-!
# Edges of lockfiles

A lockfile reads the name of a dependency at the beginning of a requirement text, while a resolution
reads it from the trimmed text. The two names are the same unless the text begins with a blank, where
the lockfile reads the empty name. Lists that are read from cells have no such texts, so what a
workbook keeps leads to all packages that the texts require, and to no others where a cell has not
cut a text. Versions are not described here.
-/

namespace SheetPackages

open Relation (ReflTransGen)
open Text (pieces trim)
open Workbook (Whole splitList startsEntry tidied)

/-! ## Names at beginnings -/

theorem Workbook.head?_of_startsEntry {s : List Char} (h : startsEntry s = true) :
    ∀ c ∈ s.head?, Text.isBlank c = false := by
  obtain ⟨c, rest, rfl, hc⟩ := startsEntry_iff.mp h
  intro first hfirst
  cases hfirst
  exact Dependency.not_isBlank hc

namespace Dependency

variable {text : String} {d : Dependency}

theorem name_ne_empty (h : parse text = .ok d) : d.name ≠ "" := fun hempty ↦
  (of_parse h).1 (String.toList_eq_nil_iff.mpr hempty)

theorem exists_parse_of_startsEntry (h : startsEntry text.toList = true) :
    ∃ d, parse text = .ok d := by
  obtain ⟨c, rest, htext, hc⟩ := Workbook.startsEntry_iff.mp h
  have hname : ∀ d ∈ [c], isNameChar d = true := fun d hd ↦ List.mem_singleton.mp hd ▸ hc
  have hread := ofChars_name_append (List.cons_ne_nil c []) hname rest
  exact ⟨_, by rw [parse, htext]; exact hread⟩

end Dependency

namespace Locked

variable {text : String} {d : Dependency}

/-- Trimming does not change the name of a text that does not begin with a blank. -/
theorem nameOf_trimmed_of_head? (h : ∀ c ∈ text.toList.head?, Text.isBlank c = false) :
    nameOf (Text.trimmed text) = nameOf text := by
  rw [nameOf, nameOf, Text.trimmed, String.toList_ofList, trim, Text.trimLeft_eq_self h,
    Text.takeWhile_trimRight fun _ ↦ Dependency.not_isBlank]

theorem nameOf_eq_empty_iff : nameOf text = "" ↔ startsEntry text.toList = false := by
  rw [nameOf, String.ofList_eq_empty_iff]
  cases text.toList with
  | nil => exact iff_of_true rfl rfl
  | cons c rest => cases hc : Dependency.isNameChar c <;> simp [startsEntry, hc]

/-- The name of a requirement is read where it begins with one, and nowhere else. -/
theorem nameOf_eq_name_iff (h : Dependency.parse text = .ok d) :
    nameOf text = d.name ↔ startsEntry text.toList = true := by
  constructor
  · intro hname
    rw [← Bool.not_eq_false, ← nameOf_eq_empty_iff, hname]
    exact Dependency.name_ne_empty h
  · intro hstarts
    rw [← nameOf_trimmed_of_head? (Workbook.head?_of_startsEntry hstarts), nameOf_trimmed h]

/-- A requirement begins with its name unless there is a blank in front. -/
theorem startsEntry_iff_head? (h : Dependency.parse text = .ok d) :
    startsEntry text.toList = true ↔ ∀ c ∈ text.toList.head?, Text.isBlank c = false := by
  refine ⟨Workbook.head?_of_startsEntry, fun hhead ↦ (nameOf_eq_name_iff h).mp ?_⟩
  rw [← nameOf_trimmed_of_head? hhead, nameOf_trimmed h]

theorem startsEntry_iff : startsEntry text.toList = true ↔
    (∃ d, Dependency.parse text = .ok d) ∧ ∀ c ∈ text.toList.head?, Text.isBlank c = false :=
  ⟨fun h ↦ ⟨Dependency.exists_parse_of_startsEntry h, Workbook.head?_of_startsEntry h⟩,
    fun ⟨⟨_, hparse⟩, hhead⟩ ↦ (startsEntry_iff_head? hparse).mpr hhead⟩

end Locked

/-! ## Edges -/

namespace Lockfile

variable {l : Lockfile}

/-- The requirement texts that are recorded for a name. -/
def declared (l : Lockfile) (name : String) : List String :=
  ((l.get? name).map Locked.dependencies).getD []

/-- A requirement that is recorded for one name is on a package with the other. -/
def Requires (l : Lockfile) (a b : String) : Prop :=
  ∃ text ∈ l.declared a, ∃ d, Dependency.parse text = .ok d ∧ d.name = b

/-- All texts that are recorded for packages are requirements. -/
def Accepted (l : Lockfile) : Prop :=
  ∀ name, ∀ text ∈ l.declared name, ∃ d, Dependency.parse text = .ok d

/-- The names that the lockfile reads are those of the requirements. -/
def Agrees (l : Lockfile) : Prop :=
  ∀ a b, b ∈ l.needs a ↔ l.Requires a b

/-- The closures hold what the edges lead to from the roots, and nothing else. -/
def Follows (l : Lockfile) (edges : String → String → Prop) : Prop :=
  ∀ roots name, name ∈ l.closure roots ↔ ∃ root ∈ roots, ReflTransGen edges root name

theorem forall_declared_iff {P : String → Prop} : (∀ name, ∀ text ∈ l.declared name, P text) ↔
    ∀ entry ∈ l.packages.values, ∀ text ∈ entry.dependencies, P text := by
  constructor
  · intro h entry hentry text htext
    obtain ⟨name, hname⟩ := OrderedMap.mem_values_iff.mp hentry
    exact h name text (by rwa [declared, get?, hname])
  · intro h name text htext
    rw [declared] at htext
    cases hentry : l.get? name with
    | none =>
      rw [hentry] at htext
      cases htext
    | some entry =>
      rw [hentry] at htext
      exact h entry (OrderedMap.mem_values_iff.mpr ⟨name, hentry⟩) text htext

theorem needs_eq_map (l : Lockfile) (name : String) :
    l.needs name = (l.declared name).map Locked.nameOf := by
  rw [needs, declared]
  cases l.get? name <;> rfl

theorem mem_needs_iff {a b : String} :
    b ∈ l.needs a ↔ ∃ text ∈ l.declared a, Locked.nameOf text = b := by
  rw [needs_eq_map, List.mem_map]

theorem not_requires_empty (a : String) : ¬l.Requires a "" := by
  rintro ⟨text, _, d, hparse, hempty⟩
  exact Dependency.name_ne_empty hparse hempty

theorem agrees_iff :
    l.Agrees ↔ ∀ name, ∀ text ∈ l.declared name, startsEntry text.toList = true := by
  constructor
  · intro h name text htext
    by_contra hstarts
    have hempty : Locked.nameOf text = "" :=
      Locked.nameOf_eq_empty_iff.mpr (Bool.not_eq_true _ ▸ hstarts)
    exact not_requires_empty name ((h name "").mp (mem_needs_iff.mpr ⟨text, htext, hempty⟩))
  · intro h a b
    rw [mem_needs_iff]
    refine exists_congr fun text ↦ and_congr_right fun htext ↦ ?_
    obtain ⟨d, hparse⟩ := Dependency.exists_parse_of_startsEntry (h a text htext)
    rw [(Locked.nameOf_eq_name_iff hparse).mpr (h a text htext)]
    simp [hparse]

theorem follows_of_edges {edges : String → String → Prop}
    (h : ∀ a b, b ∈ l.needs a ↔ edges a b) : l.Follows edges := by
  have hreaches : l.Reaches = ReflTransGen edges := by
    rw [Reaches]
    exact congrArg ReflTransGen (funext₂ fun a b ↦ propext (h a b))
  intro roots name
  rw [mem_closure_iff, hreaches]

/-- Where nothing is locked under the empty name, which no requirement has, closures show whether
the names agree. -/
theorem follows_iff_agrees (hempty : l.contains "" = false) : l.Follows l.Requires ↔ l.Agrees := by
  refine ⟨fun h ↦ agrees_iff.mpr fun name text htext ↦ ?_, follows_of_edges⟩
  by_contra hstarts
  have hread : "" ∈ l.needs name := mem_needs_iff.mpr
    ⟨text, htext, Locked.nameOf_eq_empty_iff.mpr (Bool.not_eq_true _ ▸ hstarts)⟩
  have hclosure : "" ∈ l.closure [name] :=
    mem_closure_iff.mpr ⟨name, List.mem_singleton_self name, .single hread⟩
  obtain ⟨root, hroot, hreaches⟩ := (h [name] "").mp hclosure
  rcases hreaches.cases_tail with hsame | ⟨last, _, hrequires⟩
  · -- The root itself would be the empty name, which is not locked and has no texts.
    rw [← List.mem_singleton.mp hroot, ← hsame, declared, Lockfile.get?,
      OrderedMap.contains_eq_false_iff.mp hempty] at htext
    cases htext
  · exact not_requires_empty last hrequires

/-! ## Lockfiles that are read -/

theorem lookup_keepFirst (taken : List String) (entries : List (String × Locked)) (name : String) :
    ((keepFirst taken entries).lookup name).map Locked.dependencies =
      (entries.lookup name).map Locked.dependencies := by
  induction entries generalizing taken with
  | nil => rfl
  | cons entry rest ih =>
    rw [keepFirst, List.lookup_cons, List.lookup_cons]
    cases name == entry.1
    · exact ih _
    · rfl

theorem declared_exclusive (l : Lockfile) (name : String) :
    l.exclusive.declared name = l.declared name := by
  rw [declared, get?, OrderedMap.get?, entries_exclusive, lookup_keepFirst, declared, get?,
    OrderedMap.get?]

end Lockfile

namespace Workbook

/-- What is read is not blank in front. -/
theorem Unbroken.head? {s : String} (h : Unbroken s) :
    ∀ c ∈ s.toList.head?, Text.isBlank c = false := by
  have hfragments := h.fragments
  intro c hc
  obtain ⟨rest, hs⟩ := List.head?_eq_some_iff.mp hc
  by_cases hcomma : c = ','
  · rw [hcomma]
    exact isBlank_comma
  · obtain ⟨piece, more, _, hcons⟩ := Text.pieces_cons_of_ne hcomma rest
    rw [hs, hcons] at hfragments
    exact (Text.trim_eq_self_iff.mp (hfragments _ List.mem_cons_self).2).1 c rfl

theorem exists_cell_of_lockedOfRow? {row : List String} {name : String} {entry : Locked}
    (h : lockedOfRow? row = some (name, entry)) : ∃ cell, entry.dependencies = splitList cell := by
  unfold lockedOfRow? at h
  split at h
  · cases h
    exact ⟨_, rfl⟩
  · cases h

/-- The requirements of a lockfile that is read are what is read from some cells. -/
theorem exists_cell_of_decodeLockfile? {definition : String} {l : Lockfile}
    (h : decodeLockfile? definition = some l) (name : String) :
    ∃ cell, l.declared name = splitList cell := by
  rw [decodeLockfile?] at h
  cases hgrid : Grid.parse definition with
  | nil =>
    rw [hgrid] at h
    cases h
  | cons header rows =>
    rw [hgrid] at h
    cases h
    rw [Lockfile.declared_exclusive, Lockfile.declared]
    cases hentry : Lockfile.get? ⟨.ofList (rows.filterMap lockedOfRow?)⟩ name with
    | none => exact ⟨"", rfl⟩
    | some entry =>
      rcases OrderedMap.get?_insertAll hentry with hnone | hmem
      · cases hnone
      · obtain ⟨row, _, hrow⟩ := List.mem_filterMap.mp hmem
        exact exists_cell_of_lockedOfRow? hrow

/-- Where a lockfile that is read holds nothing but requirements, it reads their names. -/
theorem agrees_iff_of_decodeLockfile? {definition : String} {l : Lockfile}
    (h : decodeLockfile? definition = some l) : l.Agrees ↔ l.Accepted := by
  rw [Lockfile.agrees_iff]
  refine forall_congr' fun name ↦ forall₂_congr fun text htext ↦ ?_
  refine ⟨Dependency.exists_parse_of_startsEntry, fun ⟨d, hparse⟩ ↦ ?_⟩
  obtain ⟨cell, hcell⟩ := exists_cell_of_decodeLockfile? h name
  exact (Locked.startsEntry_iff_head? hparse).mpr
    ((listable_splitList cell).unbroken text (hcell ▸ htext)).head?

/-! ## Lockfiles that are written -/

variable {text : String} {d : Dependency}

/-- The first entry that is read of a requirement has its name, and further ones begin with names of
their own. -/
theorem exists_splitList_of_parse (h : Dependency.parse text = .ok d) :
    ∃ entry others, splitList text = entry :: others ∧ Locked.nameOf entry = d.name ∧
      ∀ other ∈ entry :: others, startsEntry other.toList = true := by
  obtain ⟨first, more, hfragments, hfirst, hjoined⟩ :=
    fragments_of_startsEntry (Dependency.startsEntry_of_parse h)
  have hpieces : ∀ piece ∈ first :: more, IsFragment piece :=
    hfragments ▸ isFragment_of_mem_fragments
  obtain ⟨entry, others, hentries, hhead, _, hbegins⟩ := entriesOf_spec first more hpieces
  obtain ⟨behind, hentry⟩ := List.head?_eq_some_iff.mp hhead
  have htidied : pieces ',' (tidied (trim text.toList)) = first :: more :=
    hjoined ▸ Text.pieces_joined_of_not_mem (List.cons_ne_nil first more)
      fun piece hpiece ↦ (hpieces piece hpiece).comma
  refine ⟨String.ofList entry, others.map String.ofList, ?_, ?_, ?_⟩
  case refine_1 => rw [splitList, hfragments, hentries, List.map_cons]
  case refine_2 =>
    have hstarts : startsEntry (tidied (trim text.toList)) = true :=
      (startsEntry_of_pieces htidied).trans hfirst
    calc Locked.nameOf (String.ofList entry)
      _ = Locked.nameOf (String.ofList (tidied (trim text.toList))) := by
        rw [Locked.nameOf, Locked.nameOf, String.toList_ofList, String.toList_ofList,
          Text.takeWhile_of_pieces not_isNameChar_comma hentry,
          Text.takeWhile_of_pieces not_isNameChar_comma htidied]
      _ = d.name :=
        (Locked.nameOf_eq_name_iff (Dependency.parse_tidied h)).mpr
          (by rwa [String.toList_ofList])
  case refine_3 =>
    refine List.forall_mem_cons.mpr ⟨?_, List.forall_mem_map.mpr fun other hother ↦ ?_⟩
    · rw [String.toList_ofList, startsEntry_of_pieces hentry, hfirst]
    · rw [String.toList_ofList, hbegins other hother]

theorem nameOf_of_whole (h : Dependency.parse text = .ok d) (hwhole : Whole text) :
    ∀ entry ∈ splitList text, Locked.nameOf entry = d.name := by
  obtain ⟨entry, others, hread, hname, _⟩ := exists_splitList_of_parse h
  have hone := (length_splitList (Dependency.startsEntry_of_parse h)).2.mpr hwhole
  rw [hread, List.length_cons, Nat.add_eq_right, List.length_eq_zero_iff] at hone
  rw [hread, hone]
  exact fun other hother ↦ List.mem_singleton.mp hother ▸ hname

/-- A lockfile of requirements is read with the entries that are read of each requirement. -/
theorem exists_decodeLockfile?_of_accepted {l : Lockfile} (h : l.Accepted) :
    ∃ read, decodeLockfile? (encodeLockfile l).definition = some read ∧
      ∀ name, read.declared name = (l.declared name).flatMap splitList := by
  refine ⟨_, decodeLockfile?_eq_exclusive l, fun name ↦ ?_⟩
  have hstarts : ∀ text ∈ l.declared name, startsEntry (trim text.toList) = true := by
    intro text htext
    obtain ⟨d, hparse⟩ := h name text htext
    exact Dependency.startsEntry_of_parse hparse
  rw [← splitList_joinList_eq_flatMap hstarts, Lockfile.declared_exclusive, Lockfile.declared,
    Lockfile.declared, Lockfile.get?, OrderedMap.get?_map, Lockfile.get?]
  cases l.packages.get? name <;> rfl

end Workbook

namespace Lockfile

open Workbook (decodeLockfile? encodeLockfile)

variable {l : Lockfile}

theorem exists_agrees_of_accepted (h : l.Accepted) :
    ∃ read, decodeLockfile? (encodeLockfile l).definition = some read ∧ read.Agrees ∧
      (∀ a b, l.Requires a b → b ∈ read.needs a) ∧
      ((∀ name, ∀ text ∈ l.declared name, Whole text) → read.Follows l.Requires) := by
  obtain ⟨read, hread, hdeclared⟩ := Workbook.exists_decodeLockfile?_of_accepted h
  have hneeds {a b : String} : b ∈ read.needs a ↔
      ∃ text ∈ l.declared a, ∃ entry ∈ splitList text, Locked.nameOf entry = b := by
    rw [mem_needs_iff, hdeclared]
    simp only [List.mem_flatMap]
    constructor
    · rintro ⟨entry, ⟨text, htext, hentry⟩, hname⟩
      exact ⟨text, htext, entry, hentry, hname⟩
    · rintro ⟨text, htext, entry, hentry, hname⟩
      exact ⟨entry, ⟨text, htext, hentry⟩, hname⟩
  have hkept (a b : String) (hrequires : l.Requires a b) : b ∈ read.needs a := by
    obtain ⟨text, htext, d, hparse, rfl⟩ := hrequires
    obtain ⟨entry, others, hsplit, hname, _⟩ := Workbook.exists_splitList_of_parse hparse
    exact hneeds.mpr ⟨text, htext, entry, hsplit ▸ List.mem_cons_self, hname⟩
  refine ⟨read, hread, ?_, hkept, fun hwhole ↦ follows_of_edges fun a b ↦ ⟨?_, hkept a b⟩⟩
  · refine agrees_iff.mpr fun name entry hentry ↦ ?_
    rw [hdeclared] at hentry
    obtain ⟨text, htext, hentry⟩ := List.mem_flatMap.mp hentry
    obtain ⟨d, hparse⟩ := h name text htext
    obtain ⟨first, others, hsplit, _, hstarts⟩ := Workbook.exists_splitList_of_parse hparse
    exact hstarts entry (hsplit ▸ hentry)
  · intro hneeded
    obtain ⟨text, htext, entry, hentry, rfl⟩ := hneeds.mp hneeded
    obtain ⟨d, hparse⟩ := h a text htext
    exact ⟨text, htext, d, hparse,
      (Workbook.nameOf_of_whole hparse (hwhole a text htext) entry hentry).symm⟩

/-- A lockfile reads the name of a requirement wherever it is recorded exactly if no blank is in front
of it. The edges of a lockfile are those of the requirements, and closures lead along these, exactly
if all recorded texts are requirements with no blank in front. In a lockfile that is read from a
workbook no requirement has one; of written requirements it keeps all edges, and it gets no others if
the cells cut no requirement. -/
theorem names_agree_iff (text : String) (l : Lockfile) :
    (∀ d, Dependency.parse text = .ok d →
      ((∀ (entry : Locked) (i : Nat), entry.dependencies[i]? = some text →
          entry.dependencyNames[i]? = some d.name) ↔
        ∀ c ∈ text.toList.head?, Text.isBlank c = false)) ∧
    (l.Agrees ↔ l.Accepted ∧
      ∀ name, ∀ text ∈ l.declared name, ∀ c ∈ text.toList.head?, Text.isBlank c = false) ∧
    (l.contains "" = false → (l.Follows l.Requires ↔ l.Agrees)) ∧
    (∀ definition, decodeLockfile? definition = some l → (l.Agrees ↔ l.Accepted)) ∧
    (l.Accepted →
      ∃ read, decodeLockfile? (encodeLockfile l).definition = some read ∧ read.Agrees ∧
        (∀ a b, l.Requires a b → b ∈ read.needs a) ∧
        ((∀ name, ∀ text ∈ l.declared name, Whole text) → read.Follows l.Requires)) := by
  refine ⟨fun d hparse ↦ ?_, ?_, follows_iff_agrees,
    fun definition ↦ Workbook.agrees_iff_of_decodeLockfile?, exists_agrees_of_accepted⟩
  · rw [← Locked.startsEntry_iff_head? hparse, ← Locked.nameOf_eq_name_iff hparse]
    constructor
    · intro h
      exact Option.some_inj.mp (h { version := "", dependencies := [text] } 0 rfl)
    · intro hname entry i htext
      rw [Locked.dependencyNames, List.getElem?_map, htext, Option.map_some, hname]
  · rw [agrees_iff, Accepted, ← forall_and]
    refine forall_congr' fun name ↦ ?_
    rw [← forall₂_and]
    exact forall₂_congr fun text _ ↦ Locked.startsEntry_iff

/-- A lockfile as an archive with a blank in front of a requirement leaves it. -/
def spaced : Lockfile :=
  ⟨.ofList [
    ("app", { version := "1.0.0", dependencies := [" lib >=1.0, <2.0", "tool"] }),
    ("lib", { version := "1.2.0", dependencies := ["base@file:/a b.gspkg"] })]⟩

/-- The blank hides a package as long as the lockfile is not written and read again. -/
theorem names_agree_iff_spaced :
    (∀ (entry : Locked) (i : Nat), entry.dependencies[i]? = some "lib >=1.0" →
      entry.dependencyNames[i]? = some "lib") ∧
    ¬spaced.Agrees ∧ ¬spaced.Follows spaced.Requires ∧
    ∃ read, decodeLockfile? (encodeLockfile spaced).definition = some read ∧ read.Accepted ∧
      read.Follows spaced.Requires := by
  obtain ⟨hname, hlocked, hclosures, -, hwritten⟩ := names_agree_iff "lib >=1.0" spaced
  have hparse : Dependency.parse "lib >=1.0" = .ok ⟨"lib", ">=1.0"⟩ := by decide +kernel
  have haccepted : spaced.Accepted := forall_declared_iff.mpr fun entry hentry text htext ↦ by
    have hsome : ∀ entry ∈ spaced.packages.values, ∀ text ∈ entry.dependencies,
        (Dependency.parse? text).isSome = true := by decide +kernel
    obtain ⟨d, hd⟩ := Option.isSome_iff_exists.mp (hsome entry hentry text htext)
    exact ⟨d, toOption_eq_some_iff.mp hd⟩
  have hwhole : ∀ name, ∀ text ∈ spaced.declared name, Whole text :=
    forall_declared_iff.mpr (by decide +kernel)
  have hblank : ¬spaced.Agrees := fun h ↦ by
    have hfront := (hlocked.mp h).2 "app" " lib >=1.0, <2.0" (by decide +kernel) ' ' rfl
    exact absurd hfront (by decide)
  have hhead : ∀ c ∈ "lib >=1.0".toList.head?, Text.isBlank c = false :=
    Workbook.head?_of_startsEntry (by decide +kernel)
  obtain ⟨read, hdecode, hagrees, -, hfollows⟩ := hwritten haccepted
  obtain ⟨-, -, -, hread, -⟩ := names_agree_iff "lib >=1.0" read
  refine ⟨(hname _ hparse).mpr hhead, hblank, ?_, read, hdecode, ?_, hfollows hwhole⟩
  · rwa [hclosures (by decide +kernel)]
  · exact (hread _ hdecode).mp hagrees

/-- A requirement with a blank in front leads the resolution to a package that the closure misses. -/
theorem name_hidden_by_blank :
    let entry : Locked := { version := "1.0.0", dependencies := [" lib"] }
    let l : Lockfile := ⟨.ofList [("app", entry)]⟩
    Dependency.parse " lib" = .ok ⟨"lib", ""⟩ ∧ entry.dependencyNames = [""] ∧
      l.Requires "app" "lib" ∧ "lib" ∉ l.closure ["app"] := by
  intro entry l
  have hparse : Dependency.parse " lib" = .ok ⟨"lib", ""⟩ := by decide +kernel
  refine ⟨hparse, by decide +kernel, ⟨" lib", by decide +kernel, _, hparse, rfl⟩, ?_⟩
  rw [closure_eq_iterate]
  decide +kernel

end Lockfile

end SheetPackages
