import Mathlib.Data.List.Nodup
import SheetPackages.Proofs.Workbook.Lists

/-!
# Entries of list cells

What is read of any list cell: entries that stay whole, all of which but the first begin as entries
do, so the list that is read is listable. A list without repetitions has all its texts among the
entries of its cell only if it is listable itself. Which entries other lists get is not described.
-/

namespace SheetPackages.Workbook

open Text (pieces)

/-! ## Fragments -/

/-- A text that is left of the piece of a cell: it is not empty, and it has no comma and no blanks
around it. -/
structure IsFragment (piece : List Char) : Prop where
  comma : ',' ∉ piece
  trimmed : piece ≠ [] ∧ Text.trim piece = piece

theorem isFragment_of_mem_fragments {cell : List Char} :
    ∀ piece ∈ fragments cell, IsFragment piece := by
  intro fragment hfragment
  obtain ⟨_, piece, hpiece, rfl⟩ := Text.mem_cleaned_iff.mp hfragment
  have hcomma : ',' ∉ piece := Text.not_mem_of_mem_pieces piece hpiece
  exact ⟨fun hmem ↦ hcomma (Text.mem_of_mem_trim hmem), Text.trim_eq_of_mem_cleaned hfragment⟩

/-- A text begins as its first piece does. -/
theorem startsEntry_of_pieces {s first : List Char} {more : List (List Char)}
    (h : pieces ',' s = first :: more) : startsEntry s = startsEntry first := by
  cases s with
  | nil =>
    cases h
    rfl
  | cons c rest =>
    by_cases hc : c = ','
    · rw [pieces, if_pos hc] at h
      rw [hc, ← (List.cons.inj h).1]
      rfl
    · obtain ⟨piece, others, _, hcons⟩ := Text.pieces_cons_of_ne hc rest
      rw [hcons] at h
      rw [← (List.cons.inj h).1]
      rfl

/-! ## Entries -/

theorem unbroken_of_pieces {entry first : List Char} {more : List (List Char)}
    (h : pieces ',' entry = first :: more)
    (hfragments : ∀ piece ∈ first :: more, piece ≠ [] ∧ Text.trim piece = piece)
    (hmore : ∀ piece ∈ more, startsEntry piece = false) : Unbroken (String.ofList entry) := by
  constructor
  · rw [String.toList_ofList, h]
    exact hfragments
  · rw [String.toList_ofList, h]
    exact hmore

/-- The entries of some fragments: the first one has the first fragment in front. -/
theorem entriesOf_spec (first : List Char) (rest : List (List Char))
    (h : ∀ piece ∈ first :: rest, IsFragment piece) :
    ∃ entry more, entriesOf (first :: rest) = entry :: more ∧
      (pieces ',' entry).head? = some first ∧
      (∀ e ∈ entry :: more, Unbroken (String.ofList e)) ∧ ∀ e ∈ more, startsEntry e = true := by
  induction rest generalizing first with
  | nil =>
    have hfirst := h first List.mem_cons_self
    have hpieces : pieces ',' first = [first] := Text.pieces_of_not_mem hfirst.comma
    refine ⟨first, [], rfl, by rw [hpieces]; rfl, ?_, fun _ hmem ↦ absurd hmem List.not_mem_nil⟩
    intro e he
    rw [List.mem_singleton.mp he]
    apply unbroken_of_pieces hpieces
    · exact fun piece hpiece ↦ (h piece hpiece).trimmed
    · exact fun _ hmem ↦ absurd hmem List.not_mem_nil
  | cons next others ih =>
    obtain ⟨hfirst, hrest⟩ := List.forall_mem_cons.mp h
    obtain ⟨entry, more, hentries, hhead, hunbroken, hbegins⟩ := ih next hrest
    obtain ⟨behind, hpieces⟩ := List.head?_eq_some_iff.mp hhead
    have hfirstpieces : pieces ',' first = [first] := Text.pieces_of_not_mem hfirst.comma
    obtain ⟨hentry, hmore⟩ := List.forall_mem_cons.mp hunbroken
    have hfragments := hentry.fragments
    have hcontinues := hentry.continues
    rw [String.toList_ofList, hpieces] at hfragments hcontinues
    rw [entriesOf, hentries]
    by_cases hnext : startsEntry next = true
    · refine ⟨first, entry :: more, if_pos hnext, by rw [hfirstpieces]; rfl, ?_, ?_⟩
      · refine List.forall_mem_cons.mpr ⟨unbroken_of_pieces hfirstpieces ?_ ?_, hunbroken⟩
        · exact fun piece hpiece ↦ List.mem_singleton.mp hpiece ▸ hfirst.trimmed
        · exact fun _ hmem ↦ absurd hmem List.not_mem_nil
      · exact List.forall_mem_cons.mpr ⟨(startsEntry_of_pieces hpieces).trans hnext, hbegins⟩
    · have hjoined : pieces ',' (first ++ ',' :: entry) = first :: next :: behind := by
        rw [Text.pieces_append, hfirstpieces, hpieces, List.singleton_append]
      refine ⟨first ++ ',' :: entry, more, if_neg hnext, by rw [hjoined]; rfl, ?_, hbegins⟩
      refine List.forall_mem_cons.mpr ⟨unbroken_of_pieces hjoined ?_ ?_, hmore⟩
      · exact List.forall_mem_cons.mpr ⟨hfirst.trimmed, hfragments⟩
      · exact List.forall_mem_cons.mpr ⟨Bool.not_eq_true _ ▸ hnext, hcontinues⟩

/-! ## Lists that are read -/

/-- What is read of a cell begins as the first fragment does, and is listable. -/
theorem exists_splitList_eq {cell : String} {first : List Char} {more : List (List Char)}
    (h : fragments cell.toList = first :: more) :
    ∃ entry others, splitList cell = entry :: others ∧
      startsEntry entry.toList = startsEntry first ∧ Listable (entry :: others) := by
  have hpieces : ∀ piece ∈ first :: more, IsFragment piece := h ▸ isFragment_of_mem_fragments
  obtain ⟨entry, others, hentries, hhead, hunbroken, hbegins⟩ := entriesOf_spec first more hpieces
  refine ⟨String.ofList entry, others.map String.ofList, ?_, ?_, ?_, ?_⟩
  · rw [splitList, h, hentries, List.map_cons]
  · obtain ⟨_, hentrypieces⟩ := List.head?_eq_some_iff.mp hhead
    rw [String.toList_ofList, startsEntry_of_pieces hentrypieces]
  · exact List.forall_mem_map.mpr hunbroken
  · rw [List.tail_cons]
    exact List.forall_mem_map.mpr fun e he ↦ by rw [String.toList_ofList, hbegins e he]

/-- Whatever a cell holds, the list that is read of it is listable, so it is kept from then on. -/
theorem listable_splitList (cell : String) : Listable (splitList cell) := by
  cases h : fragments cell.toList with
  | nil =>
    rw [splitList, h]
    exact listable_of_storable fun _ hmem ↦ absurd hmem List.not_mem_nil
  | cons first more =>
    obtain ⟨entry, others, hread, -, hlistable⟩ := exists_splitList_eq h
    rwa [hread]

/-- A list whose texts are all read of its cell is listable: only one of them could begin as no entry
does and be read as the first, and that is the one that stands first. -/
theorem listable_of_subset {items : List String} (hnodup : items.Nodup)
    (h : ∀ item ∈ items, item ∈ splitList (joinList items)) : Listable items := by
  cases items with
  | nil => exact listable_of_storable fun _ hmem ↦ absurd hmem List.not_mem_nil
  | cons item rest =>
    have hread : Listable (splitList (joinList (item :: rest))) := listable_splitList _
    have hwhole : ∀ other ∈ item :: rest, Unbroken other := fun other hother ↦
      hread.unbroken other (h other hother)
    obtain ⟨first, more, hpieces⟩ :=
      List.exists_cons_of_ne_nil (Text.pieces_ne_nil ',' item.toList)
    have hfragments : fragments (joinList (item :: rest)).toList =
        first :: (more ++ rest.flatMap fun other ↦ fragments other.toList) := by
      rw [fragments_joinList, List.flatMap_cons,
        fragments_eq_self (hwhole item List.mem_cons_self).fragments, hpieces, List.cons_append]
    obtain ⟨entry, others, hentries, hbegins, -⟩ := exists_splitList_eq hfragments
    rw [hentries] at hread h
    have hentry (other : String) (hother : other ∈ item :: rest)
        (hstarts : startsEntry other.toList ≠ true) : other = entry :=
      (List.mem_cons.mp (h other hother)).resolve_right fun hlater ↦
        hstarts (hread.begins other hlater)
    refine ⟨hwhole, fun next hnext ↦ ?_⟩
    by_contra hstarts
    have hsame : next = entry := hentry next (List.mem_cons_of_mem _ hnext) hstarts
    have hitem : item = entry := by
      apply hentry item List.mem_cons_self
      rwa [startsEntry_of_pieces hpieces, ← hbegins, ← hsame]
    exact (List.nodup_cons.mp hnodup).1 (hitem.trans hsame.symm ▸ hnext)

end SheetPackages.Workbook
