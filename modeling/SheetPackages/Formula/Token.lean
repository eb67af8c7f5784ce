import SheetPackages.Text.Blank
import SheetPackages.Text.Ascii

/-!
# Tokens of formulas

The ordered lexer of formula texts: at each place the first rule that matches wins, in the order
string, number, identifier, single brackets and separators, operator run, blank run, any other
character. Every token takes at least one character, so the tokens cover the text without gaps.
-/

namespace SheetPackages.Formula

inductive TokenKind where
  /-- A quoted text in which two quotes stand for one. -/
  | string
  | number
  | identifier
  | openParen
  | closeParen
  | openBracket
  | closeBracket
  | openBrace
  | closeBrace
  | comma
  | semicolon
  | operator
  | blank
  /-- Any other single character, among them a quote that nothing closes. -/
  | unknown
deriving DecidableEq, Repr

/-- A piece of formula text with its place, counted in bytes of UTF-8. -/
structure Token where
  kind : TokenKind
  text : String
  start : Nat
  stop : Nat
deriving DecidableEq

namespace Token

def isSeparator (t : Token) : Bool :=
  t.kind == .comma || t.kind == .semicolon

/-- The same place and kind with another text. -/
def withText (t : Token) (text : String) : Token :=
  { t with text }

end Token

/-- The texts of tokens one after the other. -/
def textOf (tokens : List Token) : String :=
  String.join (tokens.map Token.text)

/-! ## The rules -/

def isOperatorChar (c : Char) : Bool :=
  c ∈ ['+', '-', '*', '/', '^', '&', '=', '<', '>', '!', ':']

def isIdentifierStart (c : Char) : Bool :=
  Text.isLetter c || c == '_'

def isIdentifierRest (c : Char) : Bool :=
  Text.isAlphanumeric c || c == '_' || c == '.'

/-- The number of characters behind an opening quote up to the end of the longest string. Two
quotes stand for one, but the first of them closes the string when no later quote does. -/
def closingQuote? : List Char → Option Nat
  | [] => none
  | '"' :: '"' :: rest =>
    match closingQuote? rest with
    | some n => some (n + 2)
    | none => some 1
  | c :: rest => if c = '"' then some 1 else (closingQuote? rest).map (· + 1)

def countDigits (s : List Char) : Nat :=
  (s.takeWhile Decimal.isDigit).length

/-- A point counts only with a digit behind it. -/
def fractionLength : List Char → Nat
  | '.' :: rest => if countDigits rest = 0 then 0 else 1 + countDigits rest
  | _ => 0

def signLength : List Char → Nat
  | c :: _ => if c = '+' ∨ c = '-' then 1 else 0
  | [] => 0

/-- An exponent counts only with a digit in it. -/
def exponentLength : List Char → Nat
  | c :: rest =>
    if c = 'e' ∨ c = 'E' then
      let sign := signLength rest
      let digits := countDigits (rest.drop sign)
      if digits = 0 then 0 else 1 + sign + digits
    else 0
  | [] => 0

def numberLength (s : List Char) : Nat :=
  let whole := countDigits s
  let mantissa := whole + fractionLength (s.drop whole)
  mantissa + exponentLength (s.drop mantissa)

def runLength (p : Char → Bool) (rest : List Char) : Nat :=
  (rest.takeWhile p).length

/-- The kind of the token that begins with `c`, and how many characters it takes behind `c`. -/
def rule (c : Char) (rest : List Char) : TokenKind × Nat :=
  if c = '"' then
    match closingQuote? rest with
    | some n => (.string, n)
    | none => (.unknown, 0)
  else if Decimal.isDigit c then (.number, numberLength (c :: rest) - 1)
  else if isIdentifierStart c then (.identifier, runLength isIdentifierRest rest)
  else if c = '(' then (.openParen, 0)
  else if c = ')' then (.closeParen, 0)
  else if c = '[' then (.openBracket, 0)
  else if c = ']' then (.closeBracket, 0)
  else if c = '{' then (.openBrace, 0)
  else if c = '}' then (.closeBrace, 0)
  else if c = ',' then (.comma, 0)
  else if c = ';' then (.semicolon, 0)
  else if isOperatorChar c then (.operator, runLength isOperatorChar rest)
  else if Text.isBlank c then (.blank, runLength Text.isBlank rest)
  else (.unknown, 0)

/-- The bytes that characters take in UTF-8. -/
def byteLength : List Char → Nat
  | [] => 0
  | c :: rest => c.utf8Size + byteLength rest

/-- The tokens of a text whose first byte stands at `start`. -/
def tokensFrom (start : Nat) (s : List Char) : List Token :=
  match s with
  | [] => []
  | c :: rest =>
    let (kind, more) := rule c rest
    let text := c :: rest.take more
    let stop := start + byteLength text
    ⟨kind, String.ofList text, start, stop⟩ :: tokensFrom stop (rest.drop more)
termination_by s.length
decreasing_by
  simp only [List.length_drop, List.length_cons]
  omega

def tokenize (s : String) : List Token :=
  tokensFrom 0 s.toList

end SheetPackages.Formula
