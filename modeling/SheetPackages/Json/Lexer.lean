import SheetPackages.Json.Number
import SheetPackages.Text.Blank
import SheetPackages.Text.Hexadecimal

/-!
# Words of JSON texts

A JSON text, given as bytes, is a sequence of brackets, separators, literals, numerals and quoted
texts, with blanks between them. A quoted text that pairs surrogates wrongly or is not UTF-8 is
still a word, without a value.
-/

namespace SheetPackages.Json

inductive Word where
  | openList
  | closeList
  | openObject
  | closeObject
  | comma
  | colon
  | null
  | bool (value : Bool)
  | numeral (value : Numeral)
  | text (value : Option String)

namespace Lexer

def byte (c : Char) : UInt8 :=
  c.toNat.toUInt8

def isBlank (b : UInt8) : Bool :=
  b == 0x20 || b == 0x09 || b == 0x0A || b == 0x0D

def isDigit (b : UInt8) : Bool :=
  0x30 ≤ b && b ≤ 0x39

def digit (b : UInt8) : Nat :=
  b.toNat - 0x30

/-- The characters of a quoted text so far, last one first, as UTF-8 bytes; a high surrogate may
wait for its partner. -/
structure Gathered where
  bytes : List UInt8 := []
  high : Option Nat := none
  sound : Bool := true

namespace Gathered

/-- A waiting surrogate without a partner makes the text unsound. -/
def settle (g : Gathered) : Gathered :=
  if g.high.isSome then { g with high := none, sound := false } else g

def byte (g : Gathered) (b : UInt8) : Gathered :=
  let g := g.settle
  { g with bytes := b :: g.bytes }

def scalar (g : Gathered) (n : Nat) : Gathered :=
  { g with bytes := (String.utf8EncodeChar (Char.ofNat n)).reverse ++ g.bytes }

/-- A UTF-16 unit written with four hexadecimal digits. -/
def unit (g : Gathered) (n : Nat) : Gathered :=
  if 0xDC00 ≤ n ∧ n < 0xE000 then
    match g.high with
    | some h => { g with high := none }.scalar (0x10000 + (h - 0xD800) * 0x400 + (n - 0xDC00))
    | none => { g with sound := false }
  else
    let g := g.settle
    if 0xD800 ≤ n ∧ n < 0xDC00 then { g with high := some n } else g.scalar n

def text (g : Gathered) : Option String :=
  let g := g.settle
  if g.sound then String.fromUTF8? ⟨g.bytes.reverse.toArray⟩ else none

end Gathered

/-- The character that a one-letter escape stands for. -/
def escaped? (b : UInt8) : Option UInt8 :=
  if b = byte '"' ∨ b = byte '\\' ∨ b = byte '/' then some b
  else if b = byte 'b' then some 8
  else if b = byte 'f' then some 12
  else if b = byte 'n' then some 10
  else if b = byte 'r' then some 13
  else if b = byte 't' then some 9
  else none

/-- What stands behind the opening quote up to the closing one, and the rest. -/
def quotedText (g : Gathered) : List UInt8 → Option (Option String × List UInt8)
  | [] => none
  | b :: rest =>
    if b = 0x22 then some (g.text, rest)
    else if b = 0x5C then
      match rest with
      | [] => none
      | 0x75 :: a :: b :: c :: d :: rest =>
        match Text.hexNumber? ([a, b, c, d].map fun b ↦ Char.ofNat b.toNat) with
        | some n => quotedText (g.unit n) rest
        | none => none
      | e :: rest =>
        match escaped? e with
        | some b => quotedText (g.byte b) rest
        | none => none
    else if b < 0x20 then none
    else quotedText (g.byte b) rest

theorem quotedText_length {g : Gathered} {s rest : List UInt8} {text : Option String}
    (h : quotedText g s = some (text, rest)) : rest.length < s.length := by
  fun_induction quotedText g s <;> simp_all <;> omega

/-- The digits at the beginning of `s` and the rest. -/
def digits (s : List UInt8) : List Nat × List UInt8 :=
  ((s.takeWhile isDigit).map digit, s.dropWhile isDigit)

/-- The fraction of a numeral, if there is one. -/
def fraction : List UInt8 → Option (List Nat × List UInt8)
  | 0x2E :: rest =>
    match digits rest with
    | ([], _) => none
    | found => some found
  | s => some ([], s)

def exponentDigits (negative : Bool) (s : List UInt8) :
    Option (Option (Bool × List Nat) × List UInt8) :=
  match digits s with
  | ([], _) => none
  | (found, rest) => some (some (negative, found), rest)

/-- The exponent of a numeral, if there is one. -/
def exponent : List UInt8 → Option (Option (Bool × List Nat) × List UInt8)
  | b :: rest =>
    if b = byte 'e' ∨ b = byte 'E' then
      match rest with
      | 0x2B :: rest => exponentDigits false rest
      | 0x2D :: rest => exponentDigits true rest
      | rest => exponentDigits false rest
    else some (none, b :: rest)
  | [] => some (none, [])

/-- A numeral behind its sign: no leading zero before another digit. -/
def numeral (negative : Bool) (s : List UInt8) : Option (Word × List UInt8) := do
  let (whole, rest) := digits s
  if whole = [] ∨ (whole.head? = some 0 ∧ whole.length > 1) then none
  let (fraction, rest) ← fraction rest
  let (exponent, rest) ← exponent rest
  return (.numeral ⟨negative, whole, fraction, exponent⟩, rest)

/-- The words of one byte. -/
def mark? (b : UInt8) : Option Word :=
  if b = byte '[' then some .openList
  else if b = byte ']' then some .closeList
  else if b = 0x7B then some .openObject
  else if b = 0x7D then some .closeObject
  else if b = byte ',' then some .comma
  else if b = byte ':' then some .colon
  else none

/-- The words that are spelled out. -/
def literals : List (List UInt8 × Word) :=
  [("null".toList.map byte, .null), ("true".toList.map byte, .bool true),
    ("false".toList.map byte, .bool false)]

/-- The literal at the beginning of `s`. -/
def literal? (s : List UInt8) : Option (Word × List UInt8) :=
  literals.findSome? fun (spelling, w) ↦ (spelling.isPrefixOf? s).map (w, ·)

/-- The word that begins with the byte `b`. -/
def word (b : UInt8) (rest : List UInt8) : Option (Word × List UInt8) :=
  match mark? b with
  | some w => some (w, rest)
  | none =>
    if b = 0x22 then (quotedText {} rest).map fun (found, rest) ↦ (.text found, rest)
    else if b = byte '-' then numeral true rest
    else if isDigit b then numeral false (b :: rest)
    else literal? (b :: rest)

/-! ## Every word uses up some of the text -/

theorem digits_length_le (s : List UInt8) : (digits s).2.length ≤ s.length :=
  Text.length_dropWhile_le isDigit s

theorem digits_length {s : List UInt8} (h : (digits s).1 ≠ []) :
    (digits s).2.length < s.length := by
  cases s with
  | nil => simp [digits] at h
  | cons b rest =>
    by_cases hb : isDigit b
    · have := Text.length_dropWhile_le isDigit rest
      simp only [digits, List.dropWhile_cons, hb, if_true, List.length_cons]
      omega
    · simp [digits, hb] at h

theorem fraction_length {s rest : List UInt8} {found : List Nat}
    (h : fraction s = some (found, rest)) : rest.length ≤ s.length := by
  unfold fraction at h
  split at h
  · rename_i more
    have := digits_length_le more
    split at h
    · cases h
    · simp only [Option.some.injEq] at h
      simp only [h, List.length_cons] at *
      omega
  · simp_all

theorem exponentDigits_length {negative : Bool} {s rest : List UInt8}
    {found : Option (Bool × List Nat)} (h : exponentDigits negative s = some (found, rest)) :
    rest.length ≤ s.length := by
  have := digits_length_le s
  unfold exponentDigits at h
  split at h <;> simp_all

theorem exponent_length {s rest : List UInt8} {found : Option (Bool × List Nat)}
    (h : exponent s = some (found, rest)) : rest.length ≤ s.length := by
  unfold exponent at h
  split at h
  · split at h
    · split at h <;> have := exponentDigits_length h <;> simp only [List.length_cons] at * <;> omega
    · simp_all
  · simp_all

theorem numeral_length {negative : Bool} {s after : List UInt8} {w : Word}
    (h : numeral negative s = some (w, after)) : after.length < s.length := by
  simp only [numeral] at h
  split at h
  · cases h
  · rename_i hwhole
    have hdigits := digits_length fun hnil ↦ hwhole (.inl hnil)
    cases hf : fraction (digits s).2 with
    | none => simp [hf] at h
    | some found =>
      cases he : exponent found.2 with
      | none => simp [hf, he] at h
      | some power =>
        simp only [hf, he, Option.bind_eq_bind, Option.bind_some, Option.pure_def,
          Option.some.injEq, Prod.mk.injEq] at h
        have := fraction_length hf
        have := exponent_length he
        rw [← h.2]
        omega

theorem isPrefixOf?_length {p s after : List UInt8} (h : p.isPrefixOf? s = some after) :
    p.length + after.length = s.length := by
  induction p generalizing s with
  | nil =>
    cases h
    exact Nat.zero_add _
  | cons b p ih =>
    cases s with
    | nil => cases h
    | cons c s =>
      change (if b == c then p.isPrefixOf? s else none) = some after at h
      split at h
      · have := ih h
        simp only [List.length_cons]
        omega
      · cases h

theorem literal?_length {s after : List UInt8} {w : Word} (h : literal? s = some (w, after)) :
    after.length < s.length := by
  obtain ⟨⟨spelling, v⟩, hmem, hmap⟩ := List.exists_of_findSome?_eq_some h
  obtain ⟨found, hp, heq⟩ := Option.map_eq_some_iff.mp hmap
  have hlength := isPrefixOf?_length hp
  have hpos : 0 < spelling.length := by
    simp only [literals, List.mem_cons, List.not_mem_nil, or_false, Prod.mk.injEq] at hmem
    rcases hmem with ⟨rfl, -⟩ | ⟨rfl, -⟩ | ⟨rfl, -⟩ <;> simp
  rw [← (Prod.mk.inj heq).2]
  omega

theorem word_length {b : UInt8} {rest after : List UInt8} {w : Word}
    (h : word b rest = some (w, after)) : after.length ≤ rest.length := by
  unfold word at h
  split at h
  · cases h
    exact Nat.le_refl _
  split at h
  · obtain ⟨found, hq, heq⟩ := Option.map_eq_some_iff.mp h
    exact (Prod.mk.inj heq).2 ▸ Nat.le_of_lt (quotedText_length hq)
  split at h
  · exact Nat.le_of_lt (numeral_length h)
  split at h
  · exact Nat.le_of_lt_succ (numeral_length h)
  exact Nat.le_of_lt_succ (literal?_length h)

/-- The words of a text. -/
def words (s : List UInt8) : Option (List Word) :=
  match s with
  | [] => some []
  | b :: rest =>
    if isBlank b then words rest
    else
      match _h : word b rest with
      | none => none
      | some (w, after) => (words after).map (w :: ·)
termination_by s.length
decreasing_by
  · simp
  · have := word_length _h
    simp only [List.length_cons]
    omega

end Lexer

end SheetPackages.Json
