import SheetPackages.Proofs.Workbook.Lists

/-!
# Texts that a list cell tidies

What a list cell makes of a text whatever it contains. Its fragments are the pieces between commas
without blanks around them, and blank pieces are dropped; where no fragment begins an entry of its
own, the text comes back with just these changes.
-/

namespace SheetPackages

open Text (cleaned joined pieces trim trimLeft trimRight)

namespace Workbook

theorem isBlank_comma : Text.isBlank ',' = false := by decide

/-! ## Fragments of trimmed texts -/

theorem pieces_trimLeft {s first : List Char} {more : List (List Char)}
    (h : pieces ',' s = first :: more) : pieces ',' (trimLeft s) = trimLeft first :: more := by
  induction s generalizing first with
  | nil =>
    cases h
    rfl
  | cons c rest ih =>
    by_cases hc : Text.isBlank c = true
    · have hcomma : c ≠ ',' := by
        rintro rfl
        rw [isBlank_comma] at hc
        cases hc
      obtain ⟨piece, others, hrest, hcons⟩ := Text.pieces_cons_of_ne hcomma rest
      rw [hcons, List.cons.injEq] at h
      obtain ⟨rfl, rfl⟩ := h
      have hleft (t : List Char) : trimLeft (c :: t) = trimLeft t := List.dropWhile_cons_of_pos hc
      rw [hleft, hleft]
      exact ih hrest
    · have hleft (t : List Char) : trimLeft (c :: t) = c :: t := List.dropWhile_cons_of_neg hc
      rw [hleft, h]
      by_cases hcomma : c = ','
      · rw [pieces, if_pos hcomma] at h
        rw [← (List.cons.inj h).1]
        rfl
      · obtain ⟨piece, others, _, hcons⟩ := Text.pieces_cons_of_ne hcomma rest
        rw [hcons] at h
        rw [← (List.cons.inj h).1, hleft]

theorem map_trimRight_pieces_trimRight (s : List Char) :
    (pieces ',' (trimRight s)).map trimRight = (pieces ',' s).map trimRight := by
  induction s with
  | nil => rfl
  | cons c rest ih =>
    rw [Text.trimRight_cons]
    by_cases hblank : trimRight rest = [] ∧ Text.isBlank c = true
    · have hcomma : c ≠ ',' := by
        rintro rfl
        rw [isBlank_comma] at hblank
        cases hblank.2
      obtain ⟨piece, more, hrest, hcons⟩ := Text.pieces_cons_of_ne hcomma rest
      rw [hblank.1, hrest] at ih
      obtain ⟨hpiece, hmore⟩ := List.cons.inj ih
      rw [if_pos hblank, hcons, List.map_cons, Text.trimRight_cons, ← hpiece, ← hmore]
      exact congrArg (· :: _) (if_pos ⟨rfl, hblank.2⟩).symm
    · rw [if_neg hblank]
      by_cases hcomma : c = ','
      · rw [pieces, pieces, if_pos hcomma, if_pos hcomma, List.map_cons, List.map_cons, ih]
      · obtain ⟨piece, more, hrest, hcons⟩ := Text.pieces_cons_of_ne hcomma rest
        obtain ⟨piece', more', htrimmed, hcons'⟩ := Text.pieces_cons_of_ne hcomma (trimRight rest)
        rw [htrimmed, hrest, List.map_cons, List.map_cons, List.cons.injEq] at ih
        rw [hcons, hcons', List.map_cons, List.map_cons, Text.trimRight_cons, Text.trimRight_cons,
          ih.1, ih.2]

/-- Blanks around a text do not change its fragments. -/
theorem fragments_trim (s : List Char) : fragments (trim s) = fragments s := by
  obtain ⟨first, more, hs⟩ := List.exists_cons_of_ne_nil (Text.pieces_ne_nil ',' s)
  calc
    fragments (trim s) = cleaned ((pieces ',' (trim s)).map trimRight) :=
      (Text.cleaned_map_trimRight _).symm
    _ = cleaned (pieces ',' (trimLeft s)) := by
      rw [trim, map_trimRight_pieces_trimRight, Text.cleaned_map_trimRight]
    _ = cleaned (first :: more) := by
      rw [pieces_trimLeft hs, Text.cleaned_cons, Text.cleaned_cons, Text.trim_trimLeft]
    _ = fragments s := by rw [← hs]; rfl

/-! ## Tidied texts -/

/-- The text with blank pieces behind the first dropped, and no blanks next to commas. -/
def tidied (s : List Char) : List Char :=
  match pieces ',' s with
  | [] => []
  | first :: more => joined ',' (trimRight first :: cleaned more)

theorem tidied_of_pieces {s first : List Char} {more : List (List Char)}
    (h : pieces ',' s = first :: more) :
    tidied s = joined ',' (trimRight first :: cleaned more) := by
  rw [tidied, h]

theorem pieces_tidied {s first : List Char} {more : List (List Char)}
    (h : pieces ',' s = first :: more) :
    pieces ',' (tidied s) = trimRight first :: cleaned more := by
  have hcommas : ∀ piece ∈ first :: more, ',' ∉ piece := h ▸ Text.not_mem_of_mem_pieces
  obtain ⟨hfirst, hmore⟩ := List.forall_mem_cons.mp hcommas
  rw [tidied_of_pieces h]
  apply Text.pieces_joined_of_not_mem (List.cons_ne_nil _ _)
  refine List.forall_mem_cons.mpr
    ⟨fun hmem ↦ hfirst (Text.mem_of_mem_trimRight hmem), fun fragment hfragment hmem ↦ ?_⟩
  obtain ⟨_, piece, hpiece, rfl⟩ := Text.mem_cleaned_iff.mp hfragment
  exact hmore piece hpiece (Text.mem_of_mem_trim hmem)

/-- Tidying changes no fragment. -/
theorem fragments_tidied (s : List Char) : fragments (tidied s) = fragments s := by
  obtain ⟨first, more, hs⟩ := List.exists_cons_of_ne_nil (Text.pieces_ne_nil ',' s)
  calc
    fragments (tidied s) = cleaned (trimRight first :: cleaned more) := by
      rw [← pieces_tidied hs]
      rfl
    _ = cleaned (first :: more) := by
      rw [Text.cleaned_cons, Text.cleaned_cons, Text.trim_trimRight, Text.cleaned_cleaned]
    _ = fragments s := by rw [← hs]; rfl

/-- What stands before the first comma and does not end with a blank is not changed. -/
theorem tidied_append {u : List Char} (hcomma : ',' ∉ u) (hend : trimRight u = u) (s : List Char) :
    tidied (u ++ s) = u ++ tidied s := by
  obtain ⟨first, more, hs⟩ := List.exists_cons_of_ne_nil (Text.pieces_ne_nil ',' s)
  rw [tidied_of_pieces (Text.pieces_append_of_not_mem hcomma hs), tidied_of_pieces hs,
    Text.trimRight_append hend, Text.joined_append]

theorem mem_head?_tidied {s : List Char} {c : Char} (h : c ∈ (tidied s).head?) :
    c = ',' ∨ c ∈ s.head? := by
  obtain ⟨first, more, hs⟩ := List.exists_cons_of_ne_nil (Text.pieces_ne_nil ',' s)
  rw [tidied_of_pieces hs] at h
  rw [← Text.joined_pieces ',' s, hs]
  cases hfirst : trimRight first with
  | nil =>
    rw [hfirst] at h
    cases hmore : cleaned more with
    | nil =>
      rw [hmore] at h
      cases h
    | cons next rest =>
      rw [hmore] at h
      cases h
      exact .inl rfl
  | cons d rest =>
    have hd : d ∈ first.head? := Text.mem_head?_of_mem_head?_trimRight (by rw [hfirst]; rfl)
    obtain ⟨behind, rfl⟩ := List.head?_eq_some_iff.mp hd
    have hhead (tail : List Char) (others : List (List Char)) :
        (joined ',' ((d :: tail) :: others)).head? = some d := by
      cases others <;> rfl
    rw [hfirst, hhead] at h
    exact .inr (by rw [hhead]; exact h)

theorem tidied_trimRight (s : List Char) : tidied (trimRight s) = tidied s := by
  obtain ⟨first, more, hs⟩ := List.exists_cons_of_ne_nil (Text.pieces_ne_nil ',' s)
  obtain ⟨first', more', hs'⟩ := List.exists_cons_of_ne_nil (Text.pieces_ne_nil ',' (trimRight s))
  have hmap := map_trimRight_pieces_trimRight s
  rw [hs, hs', List.map_cons, List.map_cons, List.cons.injEq] at hmap
  have hmore : cleaned more' = cleaned more := by
    rw [← Text.cleaned_map_trimRight, hmap.2, Text.cleaned_map_trimRight]
  rw [tidied_of_pieces hs, tidied_of_pieces hs', hmap.1, hmore]

theorem tidied_trim {s first : List Char} {more : List (List Char)}
    (h : pieces ',' s = first :: more) :
    tidied (trim s) = joined ',' (trim first :: cleaned more) := by
  rw [trim, tidied_trimRight, tidied_of_pieces (pieces_trimLeft h), ← trim]

/-- Of a join with trimmed texts, only the beginning of the first text is trimmed. -/
theorem trim_joined (first : List Char) {more : List (List Char)}
    (h : ∀ piece ∈ more, piece ≠ [] ∧ trim piece = piece) :
    trim (joined ',' (trimRight first :: more)) = joined ',' (trim first :: more) := by
  cases hmore : more with
  | nil => exact Text.trim_trimRight first
  | cons next rest =>
    have hne : more ≠ [] := by simp [hmore]
    have hend : trimRight (joined ',' more) = joined ',' more := by
      apply Text.trimRight_eq_self
      intro c hc
      obtain ⟨piece, hpiece, hlast⟩ := Text.getLast?_joined ',' (fun p hp ↦ (h p hp).1) c hc
      exact (Text.trim_eq_self_iff.mp (h piece hpiece).2).2 c hlast
    have hcomma : trimRight (',' :: joined ',' more) = ',' :: joined ',' more := by
      rw [Text.trimRight_cons, isBlank_comma, hend, if_neg fun hblank ↦ Bool.false_ne_true hblank.2]
    have hright (u : List Char) :
        trimRight (u ++ ',' :: joined ',' more) = u ++ ',' :: joined ',' more := by
      rw [Text.trimRight_append_of_ne_nil u (by rw [hcomma]; exact List.cons_ne_nil _ _), hcomma]
    have hleft (u : List Char) :
        trimLeft (u ++ ',' :: joined ',' more) = trimLeft u ++ ',' :: joined ',' more := by
      rw [trimLeft, List.dropWhile_append]
      split
      · next hempty =>
        rw [trimLeft, List.isEmpty_iff.mp hempty]
        rfl
      · rfl
    rw [← hmore, Text.joined_cons_of_ne_nil ',' _ hne, Text.joined_cons_of_ne_nil ',' _ hne,
      Text.trim_eq_trimLeft_trimRight, hright, hleft, ← Text.trim_eq_trimLeft_trimRight]

theorem trim_tidied (s : List Char) : trim (tidied s) = tidied (trim s) := by
  obtain ⟨first, more, hs⟩ := List.exists_cons_of_ne_nil (Text.pieces_ne_nil ',' s)
  rw [tidied_of_pieces hs, tidied_trim hs, trim_joined first fun _ ↦ Text.trim_eq_of_mem_cleaned]

/-! ## Entries that begin with a name -/

theorem startsEntry_trim {s : List Char} (h : startsEntry s = true) :
    startsEntry (trim s) = true := by
  obtain ⟨c, rest, rfl, hc⟩ := startsEntry_iff.mp h
  have hblank : ¬Text.isBlank c = true := by simp [Dependency.not_isBlank hc]
  have hleft : trimLeft (c :: rest) = c :: rest := List.dropWhile_cons_of_neg hblank
  rw [trim, hleft, Text.trimRight_cons, if_neg fun h ↦ hblank h.2]
  exact startsEntry_iff.mpr ⟨c, _, rfl, hc⟩

/-- A text that begins with a name has a first fragment that begins with it, and is tidied to the
join of its fragments. -/
theorem fragments_of_startsEntry {s : List Char} (h : startsEntry (trim s) = true) :
    ∃ first more, fragments s = first :: more ∧ startsEntry first = true ∧
      joined ',' (first :: more) = tidied (trim s) := by
  obtain ⟨first, more, hs, hfirst⟩ := pieces_of_startsEntry h
  have hbegins := startsEntry_trim hfirst
  have hne : trim first ≠ [] := fun hnil ↦ by
    rw [hnil] at hbegins
    cases hbegins
  refine ⟨trim first, cleaned more, ?_, hbegins, ?_⟩
  · calc
      fragments s = cleaned (first :: more) := by
        rw [← fragments_trim, ← hs]
        rfl
      _ = trim first :: cleaned more := by rw [Text.cleaned_cons, if_neg hne]
  · rw [← tidied_trim hs, Text.trim_trim]

/-- No fragment behind the first begins an entry of its own. -/
def Whole (s : String) : Prop :=
  ∀ fragment ∈ (fragments s.toList).tail, startsEntry fragment = false

instance (s : String) : Decidable (Whole s) :=
  inferInstanceAs (Decidable (∀ fragment ∈ (fragments s.toList).tail, _))

theorem splitList_of_whole {s : String} (h : startsEntry (trim s.toList) = true)
    (hwhole : Whole s) : splitList s = [String.ofList (tidied (trim s.toList))] := by
  obtain ⟨first, more, hs, _, htidied⟩ := fragments_of_startsEntry h
  rw [Whole, hs, List.tail_cons] at hwhole
  rw [splitList, hs, entriesOf_of_not_startsEntry hwhole, htidied, List.map_singleton]

theorem length_splitList {s : String} (h : startsEntry (trim s.toList) = true) :
    1 ≤ (splitList s).length ∧ ((splitList s).length = 1 ↔ Whole s) := by
  obtain ⟨first, more, hs, _, _⟩ := fragments_of_startsEntry h
  rw [splitList, hs, List.length_map, length_entriesOf, Whole, hs, List.tail_cons]
  refine ⟨Nat.le_add_left 1 _, ?_⟩
  rw [Nat.add_eq_right, List.countP_eq_zero]
  simp only [Bool.not_eq_true]

/-! ## Lists of such entries -/

/-- Each entry is read by itself. -/
theorem splitList_joinList_eq_flatMap {items : List String}
    (h : ∀ item ∈ items, startsEntry (trim item.toList) = true) :
    splitList (joinList items) = items.flatMap splitList := by
  rw [splitList, fragments_joinList]
  induction items with
  | nil => rfl
  | cons item rest ih =>
    obtain ⟨hitem, hrest⟩ := List.forall_mem_cons.mp h
    have hnext : ∀ piece ∈ (rest.flatMap fun item ↦ fragments item.toList).head?,
        startsEntry piece = true := by
      cases rest with
      | nil => simp
      | cons next others =>
        obtain ⟨first, more, hs, hfirst, _⟩ :=
          fragments_of_startsEntry (hrest next List.mem_cons_self)
        intro piece hpiece
        rw [List.flatMap_cons, hs] at hpiece
        cases hpiece
        exact hfirst
    rw [List.flatMap_cons, entriesOf_append_of_startsEntry hnext, List.map_append, ih hrest,
      List.flatMap_cons, splitList]

end Workbook

end SheetPackages
