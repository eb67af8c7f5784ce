import SheetPackages.Proofs.Text.Cutting
import SheetPackages.Proofs.Text.Trimming
import SheetPackages.Workbook.Records

/-!
# Lists in a cell

A list of storable texts is read from its cell as it was written. A text is storable when a reader
can tell where it ends: it begins as an entry does, none of its fragments would be trimmed or
dropped, and none behind the first begins as an entry does. The first text of a list needs no
beginning of its own, since whatever stands first in a cell begins an entry.
-/

namespace SheetPackages

theorem Dependency.not_isBlank {c : Char} (h : isNameChar c = true) : Text.isBlank c = false := by
  simp only [isNameChar, Text.isAlphanumeric, Text.isLetter, Decimal.isDigit, Bool.or_eq_true,
    Bool.and_eq_true, decide_eq_true_eq, beq_iff_eq, Char.le_def, UInt32.le_iff_toNat_le,
    Char.ext_iff, ← UInt32.toNat_inj] at h
  simp only [Text.isBlank, Bool.or_eq_false_iff, Bool.and_eq_false_iff, decide_eq_false_iff_not,
    beq_eq_false_iff_ne, Char.toNat]
  have h0 : ('0' : Char).val.toNat = 48 := rfl
  have h9 : ('9' : Char).val.toNat = 57 := rfl
  have ha : ('a' : Char).val.toNat = 97 := rfl
  have hz : ('z' : Char).val.toNat = 122 := rfl
  have hA : ('A' : Char).val.toNat = 65 := rfl
  have hZ : ('Z' : Char).val.toNat = 90 := rfl
  have hu : ('_' : Char).val.toNat = 95 := rfl
  have hm : ('-' : Char).val.toNat = 45 := rfl
  omega

namespace Workbook

structure Storable (s : String) : Prop where
  begins : startsEntry s.toList = true
  fragments : ∀ piece ∈ Text.pieces ',' s.toList, piece ≠ [] ∧ Text.trim piece = piece
  continues : ∀ piece ∈ (Text.pieces ',' s.toList).tail, startsEntry piece = false

instance (s : String) : Decidable (Storable s) :=
  decidable_of_iff
    (startsEntry s.toList = true ∧
      (∀ piece ∈ Text.pieces ',' s.toList, piece ≠ [] ∧ Text.trim piece = piece) ∧
      ∀ piece ∈ (Text.pieces ',' s.toList).tail, startsEntry piece = false)
    ⟨fun ⟨hbegins, hfragments, hcontinues⟩ ↦ ⟨hbegins, hfragments, hcontinues⟩,
      fun h ↦ ⟨h.begins, h.fragments, h.continues⟩⟩

/-- No fragment of the text would be trimmed or dropped, and none behind the first begins as an entry
does. -/
structure Unbroken (s : String) : Prop where
  fragments : ∀ piece ∈ Text.pieces ',' s.toList, piece ≠ [] ∧ Text.trim piece = piece
  continues : ∀ piece ∈ (Text.pieces ',' s.toList).tail, startsEntry piece = false

instance (s : String) : Decidable (Unbroken s) :=
  decidable_of_iff
    ((∀ piece ∈ Text.pieces ',' s.toList, piece ≠ [] ∧ Text.trim piece = piece) ∧
      ∀ piece ∈ (Text.pieces ',' s.toList).tail, startsEntry piece = false)
    ⟨fun ⟨hfragments, hcontinues⟩ ↦ ⟨hfragments, hcontinues⟩,
      fun h ↦ ⟨h.fragments, h.continues⟩⟩

/-- A list whose texts stay whole in a cell, and in which a reader finds where each one begins. -/
structure Listable (items : List String) : Prop where
  unbroken : ∀ item ∈ items, Unbroken item
  begins : ∀ item ∈ items.tail, startsEntry item.toList = true

instance (items : List String) : Decidable (Listable items) :=
  decidable_of_iff
    ((∀ item ∈ items, Unbroken item) ∧ ∀ item ∈ items.tail, startsEntry item.toList = true)
    ⟨fun ⟨hunbroken, hbegins⟩ ↦ ⟨hunbroken, hbegins⟩, fun h ↦ ⟨h.unbroken, h.begins⟩⟩

theorem Storable.unbroken {s : String} (h : Storable s) : Unbroken s :=
  ⟨h.fragments, h.continues⟩

theorem listable_of_storable {items : List String} (h : ∀ item ∈ items, Storable item) :
    Listable items :=
  ⟨fun item hitem ↦ (h item hitem).unbroken,
    fun item hitem ↦ (h item (List.mem_of_mem_tail hitem)).begins⟩

theorem startsEntry_iff {s : List Char} :
    startsEntry s = true ↔ ∃ c rest, s = c :: rest ∧ Dependency.isNameChar c = true := by
  cases s with
  | nil => simp [startsEntry]
  | cons c rest => simp [startsEntry]

theorem not_isNameChar_comma : Dependency.isNameChar ',' = false := by decide

theorem pieces_of_startsEntry {s : List Char} (h : startsEntry s = true) :
    ∃ first more, Text.pieces ',' s = first :: more ∧ startsEntry first = true := by
  obtain ⟨c, rest, rfl, hc⟩ := startsEntry_iff.mp h
  have hcomma : c ≠ ',' := by
    rintro rfl
    rw [not_isNameChar_comma] at hc
    cases hc
  rw [Text.pieces, if_neg hcomma]
  cases Text.pieces ',' rest with
  | nil => exact ⟨[c], [], rfl, startsEntry_iff.mpr ⟨c, [], rfl, hc⟩⟩
  | cons piece more => exact ⟨c :: piece, more, rfl, startsEntry_iff.mpr ⟨c, piece, rfl, hc⟩⟩

/-- Without a comma, only the beginning and the ends of a text count. -/
theorem storable_of_no_comma {s : String} (hbegins : startsEntry s.toList = true)
    (hcomma : ',' ∉ s.toList) (htrim : Text.trim s.toList = s.toList) : Storable s := by
  have hpieces : Text.pieces ',' s.toList = [s.toList] := Text.pieces_of_not_mem hcomma
  constructor
  · exact hbegins
  · intro piece hpiece
    rw [hpieces, List.mem_singleton] at hpiece
    obtain ⟨c, rest, hs, _⟩ := startsEntry_iff.mp hbegins
    exact ⟨by rw [hpiece, hs]; exact List.cons_ne_nil c rest, by rw [hpiece, htrim]⟩
  · rw [hpieces]
    exact fun _ h ↦ absurd h List.not_mem_nil

theorem Storable.trim_eq {s : String} (h : Storable s) : Text.trim s.toList = s.toList := by
  refine Text.trim_eq_self_iff.mpr ⟨fun c hc ↦ ?_, fun c hc ↦ ?_⟩
  · obtain ⟨first, rest, hs, hfirst⟩ := startsEntry_iff.mp h.begins
    rw [hs, List.head?_cons, Option.mem_some_iff] at hc
    exact hc ▸ Dependency.not_isBlank hfirst
  · rw [← Text.joined_pieces ',' s.toList] at hc
    obtain ⟨piece, hpiece, hlast⟩ :=
      Text.getLast?_joined ',' (fun piece hpiece ↦ (h.fragments piece hpiece).1) c hc
    exact (Text.trim_eq_self_iff.mp (h.fragments piece hpiece).2).2 c hlast

/-! ## Entries -/

theorem entriesOf_ne_nil (fragment : List Char) (rest : List (List Char)) :
    entriesOf (fragment :: rest) ≠ [] := by
  induction rest generalizing fragment with
  | nil => simp [entriesOf]
  | cons next more ih =>
    rw [entriesOf]
    cases entriesOf (next :: more) with
    | nil => simp
    | cons entry others =>
      simp only
      split <;> simp

/-- Where a fragment begins an entry, the entries of the fragments before it are complete. -/
theorem entriesOf_append_of_startsEntry {front rest : List (List Char)}
    (hrest : ∀ piece ∈ rest.head?, startsEntry piece = true) :
    entriesOf (front ++ rest) = entriesOf front ++ entriesOf rest := by
  induction front with
  | nil => rfl
  | cons first more ih =>
    cases more with
    | nil =>
      cases rest with
      | nil => rfl
      | cons next others =>
        rw [List.cons_append, List.nil_append, entriesOf, entriesOf]
        cases h : entriesOf (next :: others) with
        | nil => exact absurd h (entriesOf_ne_nil next others)
        | cons entry entries =>
          simp only
          rw [if_pos (hrest next rfl)]
          rfl
    | cons next others =>
      rw [List.cons_append, List.cons_append, entriesOf, ← List.cons_append, ih, entriesOf]
      cases h : entriesOf (next :: others) with
      | nil => exact absurd h (entriesOf_ne_nil next others)
      | cons entry entries =>
        simp only [List.cons_append]
        split <;> rfl

/-- Fragments that cannot begin an entry go to the one before them. -/
theorem entriesOf_of_not_startsEntry {first : List Char} {more : List (List Char)}
    (hmore : ∀ piece ∈ more, startsEntry piece = false) :
    entriesOf (first :: more) = [Text.joined ',' (first :: more)] := by
  induction more generalizing first with
  | nil => rfl
  | cons next others ih =>
    obtain ⟨hnext, hothers⟩ := List.forall_mem_cons.mp hmore
    rw [entriesOf, ih hothers]
    simp only
    rw [hnext, if_neg Bool.false_ne_true,
      Text.joined_cons_of_ne_nil ',' first (List.cons_ne_nil next others)]

theorem entriesOf_append {first : List Char} {more rest : List (List Char)}
    (hmore : ∀ piece ∈ more, startsEntry piece = false)
    (hrest : ∀ piece ∈ rest.head?, startsEntry piece = true) :
    entriesOf (first :: more ++ rest) = Text.joined ',' (first :: more) :: entriesOf rest := by
  rw [entriesOf_append_of_startsEntry hrest, entriesOf_of_not_startsEntry hmore,
    List.singleton_append]

/-- Behind the first fragment, an entry is made by each one that begins an entry. -/
theorem length_entriesOf (first : List Char) (more : List (List Char)) :
    (entriesOf (first :: more)).length = more.countP startsEntry + 1 := by
  induction more generalizing first with
  | nil => rfl
  | cons next others ih =>
    have hlength := ih next
    rw [entriesOf, List.countP_cons]
    cases h : entriesOf (next :: others) with
    | nil => exact absurd h (entriesOf_ne_nil next others)
    | cons entry entries =>
      rw [h, List.length_cons] at hlength
      simp only
      cases startsEntry next <;> simp <;> omega

theorem entriesOf_flatMap_pieces {items : List String} (h : Listable items) :
    entriesOf (items.flatMap fun item ↦ Text.pieces ',' item.toList) =
      items.map String.toList := by
  induction items with
  | nil => rfl
  | cons item rest ih =>
    have hbegins := h.begins
    rw [List.tail_cons] at hbegins
    obtain ⟨hitem, hrest⟩ := List.forall_mem_cons.mp h.unbroken
    obtain ⟨first, more, hpieces⟩ :=
      List.exists_cons_of_ne_nil (Text.pieces_ne_nil ',' item.toList)
    have hcontinues := hitem.continues
    rw [hpieces, List.tail_cons] at hcontinues
    have hmore : Listable rest := ⟨hrest, fun next hnext ↦ hbegins next (List.mem_of_mem_tail hnext)⟩
    rw [List.flatMap_cons, hpieces, entriesOf_append hcontinues, ih hmore, ← hpieces,
      Text.joined_pieces, List.map_cons]
    cases rest with
    | nil => simp
    | cons next others =>
      obtain ⟨first, more, hpieces, hfirst⟩ :=
        pieces_of_startsEntry (hbegins next List.mem_cons_self)
      intro piece hpiece
      rw [List.flatMap_cons, hpieces] at hpiece
      cases hpiece
      exact hfirst

theorem fragments_eq_self {cell : List Char}
    (h : ∀ piece ∈ Text.pieces ',' cell, piece ≠ [] ∧ Text.trim piece = piece) :
    fragments cell = Text.pieces ',' cell :=
  Text.cleaned_eq_self h

/-- The fragments of a list are those of its texts, one text after the other. -/
theorem fragments_joinList (items : List String) :
    fragments (joinList items).toList = items.flatMap fun item ↦ fragments item.toList := by
  cases items with
  | nil => rfl
  | cons item rest =>
    rw [joinList, String.toList_ofList, fragments, Text.pieces_joined ',' (by simp),
      List.flatMap_map, List.map_flatMap, List.filter_flatMap]
    rfl

/-- A listable list is read as it was written. -/
theorem splitList_joinList_of_listable {items : List String} (h : Listable items) :
    splitList (joinList items) = items := by
  have hfragments : fragments (joinList items).toList =
      items.flatMap fun item ↦ Text.pieces ',' item.toList := by
    rw [fragments_joinList]
    exact List.flatMap_congr fun item hitem ↦ fragments_eq_self (h.unbroken item hitem).fragments
  rw [splitList, hfragments, entriesOf_flatMap_pieces h, List.map_map]
  simp [Function.comp_def]

/-- A list of storable texts is read as it was written. -/
theorem splitList_joinList {items : List String} (h : ∀ item ∈ items, Storable item) :
    splitList (joinList items) = items :=
  splitList_joinList_of_listable (listable_of_storable h)

end Workbook

end SheetPackages
