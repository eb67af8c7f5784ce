/-!
# Cutting texts at a character

A text is cut at every occurrence of a character, at the first one only, or behind a given
beginning. Nothing is lost by a cut: joining the pieces with the character gives the text back.
-/

namespace SheetPackages.Text

/-- The pieces between the occurrences of `sep`; there is always at least one. -/
def pieces (sep : Char) : List Char → List (List Char)
  | [] => [[]]
  | c :: rest =>
    if c = sep then [] :: pieces sep rest
    else
      match pieces sep rest with
      | [] => [[c]]
      | piece :: more => (c :: piece) :: more

/-- The texts before and behind the first occurrence of `sep`. -/
def cut? (sep : Char) : List Char → Option (List Char × List Char)
  | [] => none
  | c :: rest =>
    if c = sep then some ([], rest)
    else (cut? sep rest).map fun (before, behind) ↦ (c :: before, behind)

/-- The pieces joined by `sep`. -/
def joined (sep : Char) : List (List Char) → List Char
  | [] => []
  | [piece] => piece
  | piece :: more => piece ++ sep :: joined sep more

theorem pieces_ne_nil (sep : Char) (s : List Char) : pieces sep s ≠ [] := by
  cases s with
  | nil => simp [pieces]
  | cons c rest =>
    unfold pieces
    split
    · simp
    · split <;> simp

theorem joined_cons_of_ne_nil (sep : Char) (piece : List Char) {more : List (List Char)}
    (h : more ≠ []) : joined sep (piece :: more) = piece ++ sep :: joined sep more := by
  cases more with
  | nil => exact absurd rfl h
  | cons next rest => rfl

theorem joined_pieces (sep : Char) (s : List Char) : joined sep (pieces sep s) = s := by
  induction s with
  | nil => rfl
  | cons c rest ih =>
    unfold pieces
    split
    · next h =>
      rw [joined_cons_of_ne_nil sep [] (pieces_ne_nil sep rest), ih, h]
      rfl
    · cases hp : pieces sep rest with
      | nil => exact absurd hp (pieces_ne_nil sep rest)
      | cons piece more =>
        rw [hp] at ih
        cases more with
        | nil => simpa [joined] using ih
        | cons next others => simpa [joined] using ih

/-- What follows `beginning` in `s`, if `s` begins with it. -/
def behind? (beginning s : String) : Option String :=
  (beginning.toList.isPrefixOf? s.toList).map String.ofList

/-- What precedes `ending` in `s`, if `s` ends with it. -/
def before? (ending s : String) : Option String :=
  (ending.toList.isSuffixOf? s.toList).map String.ofList

/-- The lines of a text: a carriage return before the line feed belongs to the line's end, and a
final line feed opens no further line. -/
def lines (s : List Char) : List (List Char) :=
  let cuts := pieces '\n' s
  let whole := if cuts.getLast? = some [] then cuts.dropLast else cuts
  whole.mapIdx fun i line ↦
    if i + 1 = cuts.length then line else (['\r'].isSuffixOf? line).getD line

/-- The items of a list written one after the other with a comma and a space between them. -/
def commaSeparated (items : List String) : String :=
  ", ".intercalate items

end SheetPackages.Text
