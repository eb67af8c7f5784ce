import SheetPackages.Json.Number
import SheetPackages.Text.Hexadecimal

/-!
# Writing JSON

The two written forms of a JSON value: compact, without any blanks, and indented by two spaces a
level, where empty lists and objects stay on one line. Quotes, backslashes and the characters below
U+0020 are escaped; everything else is written as it is.
-/

namespace SheetPackages.Json

/-- How one character stands inside a quoted text. -/
def escape (c : Char) : List Char :=
  if c = '"' then ['\\', '"']
  else if c = '\\' then ['\\', '\\']
  else if c.toNat ≥ 0x20 then [c]
  else if c.toNat = 8 then ['\\', 'b']
  else if c.toNat = 12 then ['\\', 'f']
  else if c = '\n' then ['\\', 'n']
  else if c = '\r' then ['\\', 'r']
  else if c = '\t' then ['\\', 't']
  else ['\\', 'u', '0', '0', Text.hexDigit (c.toNat / 16), Text.hexDigit (c.toNat % 16)]

def quoted (s : String) : String :=
  "\"" ++ String.ofList (s.toList.flatMap escape) ++ "\""

mutual

def compact : Json → String
  | .null => "null"
  | .bool b => if b then "true" else "false"
  | .int n => intText n
  | .real bits => realText bits
  | .text s => quoted s
  | .list items => "[" ++ ",".intercalate (compactItems items) ++ "]"
  | .object members => "\x7b" ++ ",".intercalate (compactMembers members) ++ "\x7d"

def compactItems : List Json → List String
  | [] => []
  | item :: rest => compact item :: compactItems rest

def compactMembers : List (String × Json) → List String
  | [] => []
  | (key, value) :: rest => (quoted key ++ ":" ++ compact value) :: compactMembers rest

end

/-- The lines of a container between its brackets. -/
def block (indent opening closing : String) (lines : List String) : String :=
  if lines = [] then opening ++ closing
  else
    opening ++ "\n" ++ ",\n".intercalate (lines.map fun line ↦ indent ++ "  " ++ line) ++ "\n" ++
      indent ++ closing

mutual

/-- The indented form of a value whose first line stands behind `indent`. -/
def indented (indent : String) : Json → String
  | .list items => block indent "[" "]" (indentedItems (indent ++ "  ") items)
  | .object members =>
    block indent "\x7b" "\x7d" (indentedMembers (indent ++ "  ") members)
  | .null => "null"
  | .bool b => if b then "true" else "false"
  | .int n => intText n
  | .real bits => realText bits
  | .text s => quoted s

def indentedItems (indent : String) : List Json → List String
  | [] => []
  | item :: rest => indented indent item :: indentedItems indent rest

def indentedMembers (indent : String) : List (String × Json) → List String
  | [] => []
  | (key, value) :: rest =>
    (quoted key ++ ": " ++ indented indent value) :: indentedMembers indent rest

end

def pretty (value : Json) : String :=
  indented "" value

end SheetPackages.Json
