import SheetPackages.Text.Cut
import SheetPackages.Text.Blank

/-!
# Array literals

A grid of texts is kept in a formula as an array literal: cells separated by `,` in rows separated
by `;`, between `={` and `}`. Every cell is written in quotes, with a quote inside it written twice.
When a literal is read, whatever stands outside quotes and is no separator is skipped, and a formula
that is no array literal has no rows.
-/

namespace SheetPackages.Workbook

abbrev Grid := List (List String)

namespace Grid

/-- A row while it is read: its finished cells and the characters of the open one, each with the
last one first. A row is begun by a quote or by a `,`. -/
structure Row where
  cells : List String := []
  cell : List Char := []
  begun : Bool := false

namespace Row

def push (r : Row) (c : Char) : Row :=
  { r with cell := c :: r.cell }

/-- Finishes the open cell and opens the next one. -/
def next (r : Row) : Row :=
  ⟨String.ofList r.cell.reverse :: r.cells, [], true⟩

/-- The cells of the row, the open one among them. -/
def finished (r : Row) : List String :=
  r.next.cells.reverse

end Row

mutual

/-- The rows of a text that stands outside quotes, `r` being the first one. -/
def plain (r : Row) : List Char → Grid
  | [] => if r.begun then [r.finished] else []
  | '"' :: rest => inQuotes { r with begun := true } rest
  | ',' :: rest => plain r.next rest
  | ';' :: rest => r.finished :: plain {} rest
  | _ :: rest => plain r rest

/-- The rows of a text that stands inside quotes, `r` being the first one. -/
def inQuotes (r : Row) : List Char → Grid
  | [] => [r.finished]
  | '"' :: '"' :: rest => inQuotes (r.push '"') rest
  | '"' :: rest => plain r rest
  | c :: rest => inQuotes (r.push c) rest

end

/-- What stands between the braces of an array literal. -/
def content? (s : List Char) : Option (List Char) :=
  (['=', '\x7b'].isPrefixOf? (Text.trim s)).bind ['\x7d'].isSuffixOf?

def parse (s : String) : Grid :=
  match content? s.toList with
  | some content => plain {} content
  | none => []

/-- The characters of a cell with every quote twice. -/
def doubled : List Char → List Char
  | [] => []
  | '"' :: rest => '"' :: '"' :: doubled rest
  | c :: rest => c :: doubled rest

/-- The characters with every pair of quotes as a single one. -/
def undoubled : List Char → List Char
  | [] => []
  | '"' :: '"' :: rest => '"' :: undoubled rest
  | c :: rest => c :: undoubled rest

def quotedCell (cell : String) : List Char :=
  '"' :: (doubled cell.toList ++ ['"'])

def rowText (row : List String) : List Char :=
  Text.joined ',' (row.map quotedCell)

/-- The array literal of a grid. -/
def text (g : Grid) : String :=
  String.ofList (['=', '\x7b'] ++ Text.joined ';' (g.map rowText) ++ ['\x7d'])

end Grid

end SheetPackages.Workbook
