import SheetPackages.Text.Ascii
import SheetPackages.Text.Cut
import SheetPackages.Text.Hexadecimal

/-!
# Addresses

Whether a text is the address of something on the web: a scheme, a colon, and the rest, which may
name a host, perhaps with a number behind it. The usual schemes of the web need a host. Hosts
outside ASCII are not looked at closely.
-/

namespace SheetPackages.Registry.Address

/-- A control character or a space. -/
def isMargin (c : Char) : Bool :=
  c.toNat ≤ 0x20

/-- The text that counts: no controls and spaces at the ends, no tabs and line ends anywhere. -/
def significant (s : List Char) : List Char :=
  ((s.dropWhile isMargin).reverse.dropWhile isMargin).reverse.filter fun c ↦
    c ≠ '\t' && c ≠ '\n' && c ≠ '\r'

def isSchemeChar (c : Char) : Bool :=
  Text.isAlphanumeric c || c = '+' || c = '-' || c = '.'

/-- The scheme in lower case and what follows its colon. -/
def scheme? (s : List Char) : Option (String × List Char) :=
  match s with
  | [] => none
  | c :: rest =>
    match rest.dropWhile isSchemeChar with
    | ':' :: behind =>
      if Text.isLetter c then
        some (Text.lowered (String.ofList (c :: rest.takeWhile isSchemeChar)), behind)
      else none
    | _ => none

/-- The schemes that need a host and in which `\` separates like `/`. -/
def isHosted (scheme : String) : Bool :=
  scheme ∈ ["http", "https", "ws", "wss", "ftp"]

/-! ## Hosts -/

/-- The number of a part of an address in version 4, in base 10, 8 or 16; the inner value is missing
when it is too large. -/
def part4? (s : List Char) : Option (Option Nat) :=
  let inBase (base : Nat) (digits : List Char) : Option (Option Nat) :=
    let value (c : Char) : Nat :=
      if Decimal.isDigit c then Decimal.digitValue c
      else if 'a' ≤ Text.lower c ∧ Text.lower c ≤ 'f' then (Text.lower c).toNat - 0x57
      else 16
    if digits.all (value · < base) then
      let n := digits.foldl (fun n c ↦ base * n + value c) 0
      some (if n < Decimal.bitLimit 32 then some n else none)
    else none
  match s with
  | [] => none
  | '0' :: 'x' :: rest | '0' :: 'X' :: rest => inBase 16 rest
  | '0' :: c :: rest => inBase 8 (c :: rest)
  | s => inBase 10 s

/-- The parts between points, without an empty last one. -/
def parts (s : List Char) : List (List Char) :=
  match (Text.pieces '.' s).reverse with
  | [] :: rest => rest.reverse
  | all => all.reverse

/-- Whether the last part of a host is a number, so that the host must be one in version 4. -/
def endsInNumber (s : List Char) : Bool :=
  match (parts s).getLast? with
  | none => false
  | some last => (last ≠ [] && last.all Decimal.isDigit) || (part4? last).isSome

def isHost4 (s : List Char) : Bool :=
  match (parts s).mapM part4? with
  | none => false
  | some numbers =>
    match (numbers.mapM id).map List.reverse with
    | some (last :: before) =>
      numbers.length ≤ 4 && before.all (· ≤ 255) &&
        last < Decimal.bitLimit (32 - 8 * before.length)
    | _ => false

def isGroup6 (s : List Char) : Bool :=
  s ≠ [] && s.length ≤ 4 && s.all fun c ↦ (Text.hexValue? c).isSome

/-- Four plain decimal numbers below 256, separated by points. -/
def isTail4 (s : List Char) : Bool :=
  let pieces := Text.pieces '.' s
  pieces.length = 4 && pieces.all fun piece ↦
    match Decimal.read? piece with
    | some n => n ≤ 255 && (piece.length = 1 || piece.head? ≠ some '0')
    | none => false

/-- How many 16-bit groups a part of an address in version 6 has; only the last part may end in
version 4. -/
def groups6? (isLast : Bool) (s : List Char) : Option Nat :=
  if s = [] then some 0
  else
    match (Text.pieces ':' s).reverse with
    | last :: before =>
      if !before.all isGroup6 then none
      else if isGroup6 last then some (before.length + 1)
      else if isLast ∧ isTail4 last then some (before.length + 2)
      else none
    | [] => none

/-- What stands before and behind the first `::`. -/
def gap? : List Char → Option (List Char × List Char)
  | ':' :: ':' :: rest => some ([], rest)
  | c :: rest => (gap? rest).map fun (before, behind) ↦ (c :: before, behind)
  | [] => none

def isHost6 (s : List Char) : Bool :=
  match gap? s with
  | none => groups6? true s = some 8
  | some (before, behind) =>
    match groups6? false before, groups6? true behind with
    | some m, some n => m + n ≤ 7
    | _, _ => false

/-- An address in version 6 between brackets. -/
def isBracketed6 (s : List Char) : Bool :=
  match (s.drop 1).reverse with
  | ']' :: inner => isHost6 inner.reverse
  | _ => false

/-- The characters that no host has. -/
def isForbidden (c : Char) : Bool :=
  c ∈ ['\x00', ' ', '#', '/', ':', '<', '>', '?', '@', '[', '\\', ']', '^', '|']

/-- The bytes of a text in which `%` and two hexadecimal digits stand for one. -/
def decoded : List Char → List Char
  | '%' :: a :: b :: rest =>
    match Text.hexNumber? [a, b] with
    | some n => Char.ofNat n :: decoded rest
    | none => '%' :: decoded (a :: b :: rest)
  | c :: rest => c :: decoded rest
  | [] => []

/-- A name or a number of a host, for the schemes of the web. -/
def isHostedHost (s : List Char) : Bool :=
  if s.head? = some '[' then isBracketed6 s
  else
    let name := decoded s
    name ≠ [] && !name.any (fun c ↦ isForbidden c || c = '%' || c.toNat < 0x20 || c.toNat = 0x7F) &&
      (!endsInNumber name || isHost4 name)

/-- A host for any other scheme. -/
def isFreeHost (s : List Char) : Bool :=
  if s.head? = some '[' then isBracketed6 s else !s.any isForbidden

/-! ## The part between `//` and the path -/

/-- The text up to the path, the query or the fragment. -/
def authority (hosted : Bool) (s : List Char) : List Char :=
  s.takeWhile fun c ↦ c ≠ '/' && c ≠ '?' && c ≠ '#' && !(hosted && c = '\\')

/-- What precedes the last `@`, if there is one, and what follows it. -/
def splitUser (s : List Char) : Option (List Char) × List Char :=
  let (behind, before) := s.reverse.span (· ≠ '@')
  match before with
  | _ :: user => (some user.reverse, behind.reverse)
  | [] => (none, s)

/-- The host and, behind a colon outside brackets, the number that goes with it. -/
def splitNumber (inBrackets : Bool) : List Char → List Char × Option (List Char)
  | [] => ([], none)
  | c :: rest =>
    if c = ':' ∧ !inBrackets then ([], some rest)
    else
      let (host, number) := splitNumber (c = '[' || (inBrackets && c ≠ ']')) rest
      (c :: host, number)

/-- The number behind a host has 16 bits; a `\` ends it. -/
def isNumber (s : List Char) : Bool :=
  let digits := s.takeWhile (· ≠ '\\')
  digits.all Decimal.isDigit && Decimal.value digits < Decimal.bitLimit 16

def isAuthority (hosted : Bool) (s : List Char) : Bool :=
  let (user, place) := splitUser s
  let (host, number) := splitNumber false place
  if host = [] then
    !hosted && number = none && user.isNone
  else
    (if hosted then isHostedHost host else isFreeHost host) && number.all isNumber

/-- What follows two slashes. -/
def doubleSlash? : List Char → Option (List Char)
  | '/' :: '/' :: rest => some rest
  | _ => none

def isSlash (c : Char) : Bool :=
  c = '/' || c = '\\'

/-- A letter that names a drive, with the mark behind it. -/
def isDrive : List Char → Bool
  | [letter, mark] => Text.isLetter letter && (mark = ':' || mark = '|')
  | _ => false

/-- What follows the scheme of files: a host is optional. -/
def isFileRest (s : List Char) : Bool :=
  match s with
  | a :: b :: rest =>
    if isSlash a ∧ isSlash b then
      let host := authority true rest
      host = [] || isDrive host || isHostedHost host
    else true
  | _ => true

def isValid (text : String) : Bool :=
  match scheme? (significant text.toList) with
  | none => false
  | some (scheme, rest) =>
    if scheme = "file" then isFileRest rest
    else if isHosted scheme then isAuthority true (authority true (rest.dropWhile isSlash))
    else
      match doubleSlash? rest with
      | some rest => isAuthority false (authority false rest)
      | none => true

end SheetPackages.Registry.Address
