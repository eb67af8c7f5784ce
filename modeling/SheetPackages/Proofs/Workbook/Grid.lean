import Mathlib.Data.List.Basic
import SheetPackages.Proofs.Text.Trimming
import SheetPackages.Workbook.Grid

/-!
# Reading written grids

A grid in which every row has a cell is read back from its array literal as it was, whatever its
cells contain. A row without cells would be read as a row with one empty cell, or not at all: no text
has such rows. So whatever text a grid was read from, it can be written and read again.
-/

namespace SheetPackages.Workbook.Grid

/-- Behind a written cell, its characters are in the open cell of the row. -/
theorem inQuotes_doubled (cell : List Char) (r : Row) {tail : List Char}
    (htail : tail.head? ≠ some '"') :
    inQuotes r (doubled cell ++ '"' :: tail) =
      plain { r with cell := cell.reverse ++ r.cell } tail := by
  induction cell generalizing r with
  | nil =>
    cases tail with
    | nil => rfl
    | cons c rest =>
      have hc : c ≠ '"' := fun h ↦ htail (congrArg some h)
      rw [doubled, List.nil_append, inQuotes]
      · rfl
      · intro more heq
        exact hc (List.cons.inj heq).1
  | cons c rest ih =>
    by_cases hc : c = '"'
    · subst hc
      rw [doubled, List.cons_append, List.cons_append, inQuotes, ih]
      simp [Row.push]
    · have hdoubled : doubled (c :: rest) = c :: doubled rest := by
        rw [doubled]
        exact fun h ↦ hc h
      rw [hdoubled, List.cons_append, inQuotes, ih]
      · simp [Row.push]
      · exact fun _ h _ ↦ hc h
      · exact fun h ↦ hc h

theorem plain_quotedCell (cell : String) (cells : List String) (begun : Bool) {tail : List Char}
    (htail : tail.head? ≠ some '"') :
    plain ⟨cells, [], begun⟩ (quotedCell cell ++ tail) =
      plain ⟨cells, cell.toList.reverse, true⟩ tail := by
  rw [quotedCell, List.cons_append, List.append_assoc, List.singleton_append, plain,
    inQuotes_doubled _ _ htail]
  simp

/-- A written row is taken cell by cell. -/
theorem plain_rowText {row : List String} (hrow : row ≠ []) (cells : List String) (begun : Bool) :
    ∃ r : Row, r.begun = true ∧ r.finished = cells.reverse ++ row ∧
      ∀ tail : List Char, tail.head? ≠ some '"' →
        plain ⟨cells, [], begun⟩ (rowText row ++ tail) = plain r tail := by
  induction row generalizing cells begun with
  | nil => exact absurd rfl hrow
  | cons cell rest ih =>
    cases rest with
    | nil =>
      refine ⟨⟨cells, cell.toList.reverse, true⟩, rfl, ?_, fun tail htail ↦ ?_⟩
      · simp [Row.finished, Row.next]
      · exact plain_quotedCell cell cells begun htail
    | cons next more =>
      obtain ⟨r, hbegun, hfinished, htails⟩ := ih (List.cons_ne_nil next more) (cell :: cells) true
      refine ⟨r, hbegun, by rw [hfinished]; simp, fun tail htail ↦ ?_⟩
      have htext : rowText (cell :: next :: more) =
          quotedCell cell ++ ',' :: rowText (next :: more) := rfl
      rw [htext, List.append_assoc, List.cons_append,
        plain_quotedCell cell cells begun (by simp), plain, ← htails tail htail]
      simp [Row.next]

theorem plain_joined_rowText {g : Grid} (h : ∀ row ∈ g, row ≠ []) :
    plain {} (Text.joined ';' (g.map rowText)) = g := by
  induction g with
  | nil => rfl
  | cons row rest ih =>
    obtain ⟨hrow, hrest⟩ := List.forall_mem_cons.mp h
    obtain ⟨r, hbegun, hfinished, htails⟩ := plain_rowText hrow [] false
    have hrowonly : r.finished = row := by rw [hfinished]; rfl
    cases rest with
    | nil =>
      have hend := htails [] (by simp)
      rw [List.append_nil] at hend
      rw [List.map_singleton, Text.joined, hend, plain, if_pos hbegun, hrowonly]
    | cons next more =>
      rw [List.map_cons, Text.joined_cons_of_ne_nil ';' _ (by simp), htails _ (by simp), plain,
        hrowonly, ih hrest]

theorem trim_literal (body : List Char) :
    Text.trim (['=', '\x7b'] ++ body ++ ['\x7d']) = ['=', '\x7b'] ++ body ++ ['\x7d'] := by
  refine Text.trim_eq_self_iff.mpr ⟨fun c hc ↦ ?_, fun c hc ↦ ?_⟩
  · rw [List.append_assoc, List.cons_append, List.head?_cons, Option.mem_some_iff] at hc
    rw [← hc]
    decide
  · rw [List.getLast?_concat, Option.mem_some_iff] at hc
    rw [← hc]
    decide

theorem content?_text (body : List Char) :
    content? (['=', '\x7b'] ++ body ++ ['\x7d']) = some body := by
  rw [content?, trim_literal, List.append_assoc, List.isPrefixOf?_eq_some_iff_append_eq.mpr rfl,
    Option.bind_some, List.isSuffixOf?_eq_some_iff_append_eq.mpr rfl]

/-- A written grid is read as it was. -/
theorem parse_text {g : Grid} (h : ∀ row ∈ g, row ≠ []) : parse (text g) = g := by
  rw [parse, text, String.toList_ofList, content?_text]
  exact plain_joined_rowText h

/-! ## Rows that are read -/

theorem Row.finished_ne_nil (r : Row) : r.finished ≠ [] :=
  List.reverse_ne_nil_iff.mpr (List.cons_ne_nil _ _)

mutual

/-- A row that is read has a cell: its open one is always among them. -/
theorem ne_nil_of_mem_plain {row : List String} (r : Row) (s : List Char)
    (h : row ∈ plain r s) : row ≠ [] := by
  unfold plain at h
  split at h
  · split at h
    · exact List.mem_singleton.mp h ▸ r.finished_ne_nil
    · exact absurd h List.not_mem_nil
  · exact ne_nil_of_mem_inQuotes _ _ h
  · exact ne_nil_of_mem_plain _ _ h
  · rcases List.mem_cons.mp h with rfl | h
    · exact r.finished_ne_nil
    · exact ne_nil_of_mem_plain _ _ h
  · exact ne_nil_of_mem_plain _ _ h

theorem ne_nil_of_mem_inQuotes {row : List String} (r : Row) (s : List Char)
    (h : row ∈ inQuotes r s) : row ≠ [] := by
  unfold inQuotes at h
  split at h
  · exact List.mem_singleton.mp h ▸ r.finished_ne_nil
  · exact ne_nil_of_mem_inQuotes _ _ h
  · exact ne_nil_of_mem_plain _ _ h
  · exact ne_nil_of_mem_inQuotes _ _ h

end

theorem ne_nil_of_mem_parse {s : String} {row : List String} (h : row ∈ parse s) : row ≠ [] := by
  unfold parse at h
  cases hcontent : content? s.toList with
  | none =>
    rw [hcontent] at h
    exact absurd h List.not_mem_nil
  | some content =>
    rw [hcontent] at h
    exact ne_nil_of_mem_plain {} content h

/-- What any text is read as is written and read again as it was. -/
theorem parse_text_parse (s : String) : parse (text (parse s)) = parse s :=
  parse_text fun _ hrow ↦ ne_nil_of_mem_parse hrow

/-- A grid is read from its array literal as it was if and only if all of its rows have cells. -/
theorem reads_as_written_iff (g : Grid) : parse (text g) = g ↔ ∀ row ∈ g, row ≠ [] := by
  constructor
  · intro h row hrow
    rw [← h] at hrow
    exact ne_nil_of_mem_parse hrow
  · exact parse_text

/-- Rows without cells are read as rows with an empty cell, except at the end. -/
example : parse (text [[], ["a"], []]) = [[""], ["a"]] := by
  decide +kernel

end SheetPackages.Workbook.Grid
