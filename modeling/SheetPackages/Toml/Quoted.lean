import SheetPackages.Text.Blank
import SheetPackages.Text.Hexadecimal

/-!
# Quoted texts in TOML

A text is written in one of four ways: between double quotes with escapes or between single quotes
as it is, on one line or, between triple quotes, on several. Only as many quotes as do not close the
text may follow one another in it.

A text is written in the first of the four ways that needs no escape; when every way needs one, it
stands between double quotes, on several lines if it has line feeds.
-/

namespace SheetPackages.Toml

/-- A character that may stand for itself: a tab, or any other one that is no control. -/
def isPlain (c : Char) : Bool :=
  c = '\t' || (0x20 ≤ c.toNat && c.toNat ≠ 0x7F)

def isSpace (c : Char) : Bool :=
  c = ' ' || c = '\t'

/-! ## Reading -/

/-- The character with the number written by hexadecimal digits; surrogates are no characters. -/
def scalar? (digits : List Char) : Option Char := do
  let n ← Text.hexNumber? digits
  if n < 0xD800 ∨ (0xDFFF < n ∧ n < 0x110000) then some (Char.ofNat n) else none

/-- The character that an escape stands for, and how many characters behind the backslash it
takes. -/
def escaped? : List Char → Option (Char × Nat)
  | 'b' :: _ => some ('\x08', 1)
  | 't' :: _ => some ('\t', 1)
  | 'n' :: _ => some ('\n', 1)
  | 'f' :: _ => some ('\x0c', 1)
  | 'r' :: _ => some ('\r', 1)
  | '"' :: _ => some ('"', 1)
  | '\\' :: _ => some ('\\', 1)
  | 'u' :: rest => if rest.length < 4 then none else (scalar? (rest.take 4)).map (·, 5)
  | 'U' :: rest => if rest.length < 8 then none else (scalar? (rest.take 8)).map (·, 9)
  | _ => none

/-- What a line end leaves: nothing if there is none. -/
def newline? : List Char → Option (List Char)
  | '\n' :: rest => some rest
  | '\r' :: '\n' :: rest => some rest
  | _ => none

/-- The rest behind blanks and line ends. -/
def skipLines : List Char → List Char
  | ' ' :: rest => skipLines rest
  | '\t' :: rest => skipLines rest
  | '\n' :: rest => skipLines rest
  | '\r' :: '\n' :: rest => skipLines rest
  | s => s

/-- The rest behind a backslash that ends its line: the line end and all blanks around it vanish. -/
def continued? (s : List Char) : Option (List Char) :=
  (newline? (s.dropWhile isSpace)).map skipLines

/-- A text on one line up to its closing quote; `seen` holds its characters, last one first. -/
def oneLine (quote : Char) (seen : List Char) : List Char → Option (String × List Char)
  | [] => none
  | c :: rest =>
    if c = quote then some (String.ofList seen.reverse, rest)
    else if c = '\\' ∧ quote = '"' then
      match escaped? rest with
      | some (d, 1) =>
        match rest with
        | _ :: rest => oneLine quote (d :: seen) rest
        | [] => none
      | some (d, n) =>
        if _h : (rest.drop n).length < (c :: rest).length then
          oneLine quote (d :: seen) (rest.drop n)
        else none
      | none => none
    else if isPlain c then oneLine quote (c :: seen) rest
    else none
termination_by s => s.length

/-- A text on several lines up to its closing quotes. -/
def severalLines (quote : Char) (seen : List Char) (s : List Char) :
    Option (String × List Char) :=
  match s with
  | [] => none
  | c :: rest =>
    if c = quote then
      let run := (c :: rest).takeWhile (· = quote)
      let after := rest.dropWhile (· = quote)
      if run.length < 3 then
        if _h : after.length < (c :: rest).length then severalLines quote (run ++ seen) after
        else none
      else if run.length < 6 then
        some (String.ofList (seen.reverse ++ run.drop 3), after)
      else none
    else if c = '\\' ∧ quote = '"' then
      match continued? rest with
      | some after =>
        if _h : after.length < (c :: rest).length then severalLines quote seen after else none
      | none =>
        match escaped? rest with
        | some (d, n) =>
          if _h : (rest.drop n).length < (c :: rest).length then
            severalLines quote (d :: seen) (rest.drop n)
          else none
        | none => none
    else if isPlain c then severalLines quote (c :: seen) rest
    else
      match newline? (c :: rest) with
      | some after =>
        if _h : after.length < (c :: rest).length then severalLines quote ('\n' :: seen) after
        else none
      | none => none
termination_by s.length
decreasing_by
  · assumption
  · assumption
  · assumption
  · simp
  · assumption

/-- The text that begins behind an opening quote; a line end right behind triple quotes is not part
of the text. -/
def quotedText (quote : Char) : List Char → Option (String × List Char)
  | a :: b :: rest =>
    if a = quote ∧ b = quote then severalLines quote [] ((newline? rest).getD rest)
    else oneLine quote [] (a :: b :: rest)
  | s => oneLine quote [] s

/-! ## Writing -/

/-- The longest run of one character. -/
def longestRun (quote : Char) : Nat → List Char → Nat
  | n, [] => n
  | n, c :: rest =>
    if c = quote then longestRun quote (n + 1) rest else max n (longestRun quote 0 rest)

/-- Whether a text holds a control that only an escape can write; tabs and line feeds are none. -/
def needsEscape (s : List Char) : Bool :=
  s.any fun c ↦ !isPlain c && c ≠ '\n'

def upperHexDigit (n : Nat) : Char :=
  if n < 10 then Char.ofNat (0x30 + n) else Char.ofNat (0x37 + n)

/-- The character as it stands between double quotes, all of which are escaped elsewhere. -/
def escape (c : Char) : List Char :=
  if c = '\\' then ['\\', '\\']
  else if c = '\x08' then ['\\', 'b']
  else if c = '\t' then ['\\', 't']
  else if c = '\n' then ['\\', 'n']
  else if c = '\x0c' then ['\\', 'f']
  else if c = '\r' then ['\\', 'r']
  else if isPlain c then [c]
  else ['\\', 'u', '0', '0', upperHexDigit (c.toNat / 16), upperHexDigit (c.toNat % 16)]

/-- A text between double quotes, where at most `free` quotes in a row stand for themselves and
`run` of them have been written. -/
def escapedText (several : Bool) (free run : Nat) : List Char → List Char
  | [] => []
  | '"' :: rest =>
    if run < free then '"' :: escapedText several free (run + 1) rest
    else '\\' :: '"' :: escapedText several free 0 rest
  | c :: rest =>
    (if several && c = '\n' then [c] else escape c) ++ escapedText several free 0 rest

def doubleQuoted (s : List Char) : List Char :=
  '"' :: (escapedText false 0 0 s ++ ['"'])

/-- What stands between triple quotes and the text: a line end if the text has one itself. -/
def opening (s : List Char) : List Char :=
  if '\n' ∈ s then ['\n'] else []

def tripleDoubleQuoted (s : List Char) : List Char :=
  ['"', '"', '"'] ++ opening s ++ escapedText true 2 0 s ++ ['"', '"', '"']

def tripleSingleQuoted (s : List Char) : List Char :=
  ['\'', '\'', '\''] ++ opening s ++ s ++ ['\'', '\'', '\'']

def written (s : List Char) : List Char :=
  let doubles := longestRun '"' 0 s
  let singles := longestRun '\'' 0 s
  let controls := needsEscape s
  let backslash := '\\' ∈ s
  let several := '\n' ∈ s
  if !controls ∧ !backslash ∧ doubles = 0 ∧ !several then doubleQuoted s
  else if !controls ∧ singles = 0 ∧ !several then '\'' :: (s ++ ['\''])
  else if !controls ∧ !backslash ∧ doubles ≤ 2 then tripleDoubleQuoted s
  else if !controls ∧ singles ≤ 2 then tripleSingleQuoted s
  else if several then tripleDoubleQuoted s
  else doubleQuoted s

end SheetPackages.Toml
