/-!
# Blank characters

The characters with the White_Space property, and the three readings of a text that depend on
them: trimming both ends, splitting into words, and splitting into lines.
-/

namespace SheetPackages.Text

/-- White_Space: the controls U+0009 to U+000D and U+0085, and the spaces and line separators. -/
def isBlank (c : Char) : Bool :=
  let n := c.toNat
  (9 ≤ n && n ≤ 13) || n == 0x20 || n == 0x85 || n == 0xA0 || n == 0x1680 ||
    (0x2000 ≤ n && n ≤ 0x200A) || n == 0x2028 || n == 0x2029 || n == 0x202F ||
    n == 0x205F || n == 0x3000

/-- The text without its leading blanks. -/
def trimLeft (s : List Char) : List Char :=
  s.dropWhile isBlank

/-- The text without its trailing blanks. -/
def trimRight (s : List Char) : List Char :=
  (s.reverse.dropWhile isBlank).reverse

def trim (s : List Char) : List Char :=
  trimRight (trimLeft s)

theorem length_dropWhile_le {α : Type} (p : α → Bool) (s : List α) :
    (s.dropWhile p).length ≤ s.length :=
  (List.dropWhile_suffix p).sublist.length_le

/-- The maximal runs of characters that are not blank, in order. -/
def words (s : List Char) : List (List Char) :=
  match _h : trimLeft s with
  | [] => []
  | c :: rest =>
    (c :: rest.takeWhile (fun d ↦ !isBlank d)) :: words (rest.dropWhile (fun d ↦ !isBlank d))
termination_by s.length
decreasing_by
  have hs : (trimLeft s).length ≤ s.length := length_dropWhile_le _ _
  have hr : (rest.dropWhile (fun d ↦ !isBlank d)).length ≤ rest.length := length_dropWhile_le _ _
  rw [_h] at hs
  simp only [List.length_cons] at hs
  omega

/-- The text of `s` without blanks at either end. -/
def trimmed (s : String) : String :=
  String.ofList (trim s.toList)

end SheetPackages.Text
