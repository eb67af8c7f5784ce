import Mathlib.Data.List.TakeWhile
import SheetPackages.Proofs.Formula.Respelling

/-!
# The lexical grammar of formulas

The texts of each kind of token, written as a grammar, and the order in which the kinds are tried.
The tokens of a text are the ones that the grammar asks for: at each place the first kind with a
text there is taken, and of its texts there the longest. A string is the kind in which this is not
decided by the next characters, since a doubled quote may be read as the end of one string or as a
part of a longer one.

The tokens that the grammar asks for are unique. Every text has them, so there are no errors to
describe.
-/

namespace SheetPackages.Formula

/-! ## The grammar -/

/-- At least one character, and all of one class. -/
structure Run (p : Char → Bool) (text : List Char) : Prop where
  ne_nil : text ≠ []
  all : ∀ c ∈ text, p c = true

/-- What stands between the quotes of a string. -/
inductive StringBody : List Char → Prop
  | nil : StringBody []
  | other {c : Char} {rest : List Char} (hc : c ≠ '"') (h : StringBody rest) :
      StringBody (c :: rest)
  | pair {rest : List Char} (h : StringBody rest) : StringBody ('"' :: '"' :: rest)

inductive Fraction : List Char → Prop
  | none : Fraction []
  | digits {digits : List Char} (h : Run Decimal.isDigit digits) : Fraction ('.' :: digits)

inductive Sign : List Char → Prop
  | none : Sign []
  | plus : Sign ['+']
  | minus : Sign ['-']

inductive Exponent : List Char → Prop
  | none : Exponent []
  | digits {c : Char} {sign digits : List Char} (hc : c = 'e' ∨ c = 'E') (hsign : Sign sign)
      (h : Run Decimal.isDigit digits) : Exponent (c :: (sign ++ digits))

/-- The texts of each kind of token. -/
inductive Matches : TokenKind → List Char → Prop
  | string {body : List Char} (h : StringBody body) : Matches .string ('"' :: (body ++ ['"']))
  | number {whole fraction exponent : List Char} (hwhole : Run Decimal.isDigit whole)
      (hfraction : Fraction fraction) (hexponent : Exponent exponent) :
      Matches .number (whole ++ (fraction ++ exponent))
  | identifier {c : Char} {rest : List Char} (hc : isIdentifierStart c = true)
      (hrest : ∀ d ∈ rest, isIdentifierRest d = true) : Matches .identifier (c :: rest)
  | openParen : Matches .openParen ['(']
  | closeParen : Matches .closeParen [')']
  | openBracket : Matches .openBracket ['[']
  | closeBracket : Matches .closeBracket [']']
  | openBrace : Matches .openBrace ['\x7b']
  | closeBrace : Matches .closeBrace ['\x7d']
  | comma : Matches .comma [',']
  | semicolon : Matches .semicolon [';']
  | operator {text : List Char} (h : Run isOperatorChar text) : Matches .operator text
  | blank {text : List Char} (h : Run Text.isBlank text) : Matches .blank text
  | unknown (c : Char) : Matches .unknown [c]

namespace TokenKind

/-- The kinds in the order in which they are tried. -/
def inOrder : List TokenKind :=
  [.string, .number, .identifier, .openParen, .closeParen, .openBracket, .closeBracket,
    .openBrace, .closeBrace, .comma, .semicolon, .operator, .blank, .unknown]

/-- The kinds that are tried before this one. -/
def earlier (kind : TokenKind) : List TokenKind :=
  inOrder.takeWhile (· ≠ kind)

/-- The first characters of the texts of a kind. -/
def opens : TokenKind → Char → Bool
  | string, c => c == '"'
  | number, c => Decimal.isDigit c
  | identifier, c => isIdentifierStart c
  | openParen, c => c == '('
  | closeParen, c => c == ')'
  | openBracket, c => c == '['
  | closeBracket, c => c == ']'
  | openBrace, c => c == '\x7b'
  | closeBrace, c => c == '\x7d'
  | comma, c => c == ','
  | semicolon, c => c == ';'
  | operator, c => isOperatorChar c
  | blank, c => Text.isBlank c
  | unknown, _ => true

end TokenKind

/-- `text` is the longest text of its kind with which `s` begins. -/
structure Longest (kind : TokenKind) (s text : List Char) : Prop where
  belongs : Matches kind text
  isPrefix : text <+: s
  length_le : ∀ other, Matches kind other → other <+: s → other.length ≤ text.length

/-- `kind` is the first kind of which `s` begins with a text, and `text` is the longest one. -/
structure FirstLongest (kind : TokenKind) (s text : List Char) : Prop extends
    Longest kind s text where
  first : ∀ earlier ∈ kind.earlier, ∀ other, Matches earlier other → ¬ other <+: s

/-! ## First characters -/

variable {kind : TokenKind} {c : Char} {rest s text : List Char}

theorem Run.exists_cons {p : Char → Bool} (h : Run p text) :
    ∃ c rest, text = c :: rest ∧ p c = true := by
  obtain ⟨c, rest, rfl⟩ := List.exists_cons_of_ne_nil h.ne_nil
  exact ⟨c, rest, rfl, h.all c List.mem_cons_self⟩

/-- No text of a kind is empty, and its first character opens the kind. -/
theorem Matches.exists_opens (h : Matches kind text) :
    ∃ c rest, text = c :: rest ∧ kind.opens c = true := by
  cases h with
  | string => exact ⟨_, _, rfl, rfl⟩
  | number hwhole =>
    obtain ⟨c, rest, rfl, hc⟩ := hwhole.exists_cons
    exact ⟨c, _, rfl, hc⟩
  | identifier hc => exact ⟨_, _, rfl, hc⟩
  | operator h => exact h.exists_cons
  | blank h => exact h.exists_cons
  | _ => exact ⟨_, _, rfl, rfl⟩

/-- A text begins with no text of a kind that its first character does not open. -/
theorem not_prefix_of_opens (hc : kind.opens c = false) (h : Matches kind text) :
    ¬ text <+: c :: rest := by
  intro hbegins
  obtain ⟨d, more, rfl, hd⟩ := h.exists_opens
  rw [(List.cons_prefix_cons.mp hbegins).1, hc] at hd
  cases hd

/-! ## Runs -/

variable {p : Char → Bool} {u v : List Char}

theorem runLength_append (hu : ∀ c ∈ u, p c = true) (s : List Char) :
    runLength p (u ++ s) = u.length + runLength p s := by
  rw [runLength, List.takeWhile_append_of_pos hu, List.length_append, runLength]

theorem length_le_runLength (hu : ∀ c ∈ u, p c = true) (h : u ++ v <+: s) :
    u.length ≤ runLength p s := by
  obtain ⟨w, rfl⟩ := h
  rw [List.append_assoc, runLength_append hu]
  exact Nat.le_add_right _ _

/-- A part of the class is the whole run when a character of another class is next. -/
theorem runLength_eq_length (hu : ∀ c ∈ u, p c = true) (hv : v ≠ [])
    (hhead : v.head?.any p = false) (h : u ++ v <+: s) : runLength p s = u.length := by
  obtain ⟨w, rfl⟩ := h
  obtain ⟨c, rest, rfl⟩ := List.exists_cons_of_ne_nil hv
  rw [List.append_assoc]
  exact runLength_append_eq_length_iff.mpr ⟨hu, hhead⟩

theorem all_take_runLength (p : Char → Bool) (s : List Char) :
    ∀ c ∈ s.take (runLength p s), p c = true := by
  intro c hc
  rw [runLength, ← List.prefix_iff_eq_take.mp (List.takeWhile_prefix p)] at hc
  exact List.mem_takeWhile_imp hc

/-- A class whose texts are its runs, with a first character that may be of a narrower class. -/
theorem longest_run (hmatches : ∀ d more, Matches kind (d :: more) ↔
      kind.opens d = true ∧ ∀ e ∈ more, p e = true)
    (hc : kind.opens c = true) :
    Longest kind (c :: rest) (c :: rest.take (runLength p rest)) where
  belongs := (hmatches _ _).mpr ⟨hc, all_take_runLength p rest⟩
  isPrefix := List.cons_prefix_cons.mpr ⟨rfl, List.take_prefix _ _⟩
  length_le other hother hbegins := by
    obtain ⟨d, more, rfl, -⟩ := hother.exists_opens
    have hmore : more ++ [] <+: rest := by
      rw [List.append_nil]
      exact (List.cons_prefix_cons.mp hbegins).2
    rw [List.length_cons, List.length_cons, List.length_take_of_le (runLength_le p rest)]
    exact Nat.succ_le_succ (length_le_runLength ((hmatches d more).mp hother).2 hmore)

theorem longest_single (hsingle : ∀ other, Matches kind other → other.length = 1)
    (h : Matches kind [c]) : Longest kind (c :: rest) [c] where
  belongs := h
  isPrefix := List.cons_prefix_cons.mpr ⟨rfl, List.nil_prefix⟩
  length_le other hother _ := (hsingle other hother).le

theorem run_cons_iff {d : Char} {more : List Char} :
    Run p (d :: more) ↔ p d = true ∧ ∀ e ∈ more, p e = true := by
  constructor
  · intro h
    exact List.forall_mem_cons.mp h.all
  · intro h
    exact ⟨List.cons_ne_nil _ _, List.forall_mem_cons.mpr h⟩

theorem matches_identifier_iff (d : Char) (more : List Char) : Matches .identifier (d :: more) ↔
    TokenKind.identifier.opens d = true ∧ ∀ e ∈ more, isIdentifierRest e = true := by
  constructor
  · intro h
    cases h with
    | identifier hc hrest => exact ⟨hc, hrest⟩
  · exact fun h ↦ .identifier h.1 h.2

theorem matches_operator_iff (d : Char) (more : List Char) : Matches .operator (d :: more) ↔
    TokenKind.operator.opens d = true ∧ ∀ e ∈ more, isOperatorChar e = true := by
  constructor
  · intro h
    cases h with
    | operator h => exact run_cons_iff.mp h
  · exact fun h ↦ .operator (run_cons_iff.mpr h)

theorem matches_blank_iff (d : Char) (more : List Char) : Matches .blank (d :: more) ↔
    TokenKind.blank.opens d = true ∧ ∀ e ∈ more, Text.isBlank e = true := by
  constructor
  · intro h
    cases h with
    | blank h => exact run_cons_iff.mp h
  · exact fun h ↦ .blank (run_cons_iff.mpr h)

/-! ## Strings -/

/-- Each closing quote that a string may have is found, or a later one. -/
theorem exists_closingQuote? {body : List Char} (hbody : StringBody body)
    (h : body ++ ['"'] <+: s) : ∃ n, closingQuote? s = some n ∧ body.length < n := by
  induction hbody generalizing s with
  | nil =>
    obtain ⟨rest, rfl⟩ := h
    cases hclosing : closingQuote? ([] ++ ['"'] ++ rest) with
    | none => simp [closingQuote?_eq_none_iff] at hclosing
    | some n => exact ⟨n, rfl, Nat.pos_of_ne_zero fun hn ↦ closingQuote?_ne_zero (hn ▸ hclosing)⟩
  | @other c body hc hbody ih =>
    obtain ⟨rest, rfl⟩ := h
    obtain ⟨n, hn, hlt⟩ := ih (List.prefix_append (body ++ ['"']) rest)
    refine ⟨n + 1, ?_, Nat.succ_lt_succ hlt⟩
    rw [List.cons_append, List.cons_append, closingQuote?_of_ne hc, hn, Option.map_some]
  | @pair body hbody ih =>
    obtain ⟨rest, rfl⟩ := h
    obtain ⟨n, hn, hlt⟩ := ih (List.prefix_append (body ++ ['"']) rest)
    refine ⟨n + 2, ?_, Nat.succ_lt_succ (Nat.succ_lt_succ hlt)⟩
    rw [List.cons_append, List.cons_append, List.cons_append, List.cons_append,
      closingQuote?_pair, hn, Option.elim_some]

/-- What is found closes a string. -/
theorem exists_stringBody {n : Nat} (h : closingQuote? s = some n) :
    ∃ body, StringBody body ∧ s.take n = body ++ ['"'] := by
  induction s using closingQuote?.induct generalizing n with
  | case1 => cases h
  | case2 rest m hrest ih =>
    rw [closingQuote?_pair, hrest, Option.elim_some, Option.some.injEq] at h
    obtain ⟨body, hbody, htake⟩ := ih hrest
    exact ⟨'"' :: '"' :: body, .pair hbody, by rw [← h, List.take_succ_cons,
      List.take_succ_cons, htake, List.cons_append, List.cons_append]⟩
  | case3 rest hrest ih =>
    rw [closingQuote?_pair, hrest, Option.elim_none, Option.some.injEq] at h
    exact ⟨[], .nil, by rw [← h]; rfl⟩
  | case4 rest hsingle =>
    have hhead : rest.head? ≠ some '"' := fun hhead ↦
      (List.head?_eq_some_iff.mp hhead).elim fun more heq ↦ hsingle more rfl heq
    rw [closingQuote?_of_single hhead, Option.some.injEq] at h
    exact ⟨[], .nil, by rw [← h]; rfl⟩
  | case5 c rest _ hc ih =>
    rw [closingQuote?_of_ne hc] at h
    obtain ⟨m, hm, rfl⟩ := Option.map_eq_some_iff.mp h
    obtain ⟨body, hbody, htake⟩ := ih hm
    exact ⟨c :: body, .other hc hbody, by rw [List.take_succ_cons, htake, List.cons_append]⟩

theorem longest_string {n : Nat} (h : closingQuote? rest = some n) :
    Longest .string ('"' :: rest) ('"' :: rest.take n) where
  belongs := by
    obtain ⟨body, hbody, htake⟩ := exists_stringBody h
    rw [htake]
    exact .string hbody
  isPrefix := List.cons_prefix_cons.mpr ⟨rfl, List.take_prefix _ _⟩
  length_le other hother hbegins := by
    cases hother with
    | @string body hbody =>
      obtain ⟨m, hm, hlt⟩ := exists_closingQuote? hbody (List.cons_prefix_cons.mp hbegins).2
      obtain rfl : n = m := Option.some.inj (h.symm.trans hm)
      rw [List.length_cons, List.length_cons, List.length_append, List.length_singleton,
        List.length_take_of_le (closingQuote?_le h)]
      omega

/-- A quote that nothing closes begins no string. -/
theorem not_string_of_closingQuote? (h : closingQuote? rest = none)
    (hmatches : Matches .string text) : ¬ text <+: '"' :: rest := by
  intro hbegins
  cases hmatches with
  | string hbody =>
    obtain ⟨n, hn, -⟩ := exists_closingQuote? hbody (List.cons_prefix_cons.mp hbegins).2
    rw [h] at hn
    cases hn

/-! ## Numbers -/

theorem Exponent.any_isDigit (h : Exponent text) : text.head?.any Decimal.isDigit = false := by
  cases h with
  | none => rfl
  | digits hc => rcases hc with rfl | rfl <;> rfl

theorem Fraction.any_isDigit {exponent : List Char} (h : Fraction text) (he : Exponent exponent) :
    (text ++ exponent).head?.any Decimal.isDigit = false := by
  cases h with
  | none => exact he.any_isDigit
  | digits => rfl

theorem signLength_eq {sign digits : List Char} (hsign : Sign sign)
    (hdigits : Run Decimal.isDigit digits) (s : List Char) :
    signLength (sign ++ (digits ++ s)) = sign.length := by
  cases hsign with
  | none =>
    obtain ⟨c, rest, rfl, hc⟩ := hdigits.exists_cons
    refine if_neg ?_
    rintro (rfl | rfl) <;> exact absurd hc (by decide)
  | plus => rfl
  | minus => rfl

/-- An exponent reaches as far as any reading of one. -/
theorem Exponent.length_le (h : Exponent text) (hbegins : text <+: s) :
    text.length ≤ exponentLength s := by
  cases h with
  | none => exact Nat.zero_le _
  | @digits c sign digits hc hsign hdigits =>
    obtain ⟨rest, rfl⟩ := hbegins
    have hcount : digits.length ≤ countDigits (digits ++ rest) :=
      length_le_runLength (v := rest) hdigits.all List.prefix_rfl
    have hpos : 0 < digits.length := List.length_pos_of_ne_nil hdigits.ne_nil
    have hnonzero : countDigits (digits ++ rest) ≠ 0 := by omega
    rw [List.cons_append, List.append_assoc, exponentLength, if_pos hc]
    simp only [signLength_eq hsign hdigits, List.drop_left, if_neg hnonzero, List.length_cons,
      List.length_append]
    omega

/-- A fraction and an exponent reach together as far as any reading of them. -/
theorem Fraction.length_le {fraction exponent : List Char} (hf : Fraction fraction)
    (he : Exponent exponent) (hbegins : fraction ++ exponent <+: s) :
    (fraction ++ exponent).length ≤
      fractionLength s + exponentLength (s.drop (fractionLength s)) := by
  cases hf with
  | none =>
    rcases eq_or_ne exponent [] with rfl | hne
    · exact Nat.zero_le _
    have hpoint : s.head? ≠ some '.' := by
      intro hs
      obtain ⟨rest, rfl⟩ := List.head?_eq_some_iff.mp hs
      cases he with
      | none => exact hne rfl
      | digits hc =>
        obtain rfl := (List.cons_prefix_cons.mp hbegins).1
        rcases hc with hc | hc <;> exact absurd hc (by decide)
    rw [fractionLength_of_ne_point hpoint, List.drop_zero, Nat.zero_add]
    exact he.length_le hbegins
  | @digits digits hdigits =>
    obtain ⟨w, rfl⟩ := hbegins
    have hpos : 0 < digits.length := List.length_pos_of_ne_nil hdigits.ne_nil
    have hdigitsPrefix : digits ++ exponent <+: digits ++ exponent ++ w := List.prefix_append _ _
    have hle : digits.length ≤ countDigits (digits ++ exponent ++ w) :=
      length_le_runLength hdigits.all hdigitsPrefix
    have hfraction : fractionLength ('.' :: (digits ++ exponent ++ w)) =
        1 + countDigits (digits ++ exponent ++ w) := by
      rw [fractionLength, if_neg (by omega)]
    rw [List.cons_append, List.cons_append, hfraction]
    rcases eq_or_ne exponent [] with rfl | hne
    · rw [List.append_nil, List.length_cons]
      rw [List.append_nil] at hle
      omega
    · have hcount : countDigits (digits ++ exponent ++ w) = digits.length :=
        runLength_eq_length hdigits.all hne he.any_isDigit hdigitsPrefix
      have hexponent : exponent.length ≤ exponentLength (exponent ++ w) :=
        he.length_le (List.prefix_append _ _)
      rw [hcount, Nat.add_comm 1, List.drop_succ_cons, List.append_assoc, List.drop_left,
        List.length_cons, List.length_append]
      omega

/-- A number reaches as far as any reading of one. -/
theorem length_le_numberLength (h : Matches .number text) (hbegins : text <+: s) :
    text.length ≤ numberLength s := by
  cases h with
  | @number whole fraction exponent hwhole hf he =>
    have hle : whole.length ≤ countDigits s := length_le_runLength hwhole.all hbegins
    simp only [numberLength]
    rw [List.length_append]
    rcases eq_or_ne (fraction ++ exponent) [] with hnil | hne
    · rw [hnil, List.length_nil]
      omega
    · have hcount : countDigits s = whole.length :=
        runLength_eq_length hwhole.all hne (hf.any_isDigit he) hbegins
      obtain ⟨w, rfl⟩ := hbegins
      have hbehind := hf.length_le he (List.prefix_append (fraction ++ exponent) w)
      rw [hcount, List.append_assoc, List.drop_left, ← List.drop_drop, List.drop_left]
      omega

theorem sign_take (s : List Char) : Sign (s.take (signLength s)) := by
  cases s with
  | nil => exact .none
  | cons c rest =>
    rw [signLength]
    split
    · next hc =>
      rcases hc with rfl | rfl
      · exact .plus
      · exact .minus
    · exact .none

theorem run_take_countDigits (h : countDigits s ≠ 0) :
    Run Decimal.isDigit (s.take (countDigits s)) where
  ne_nil hnil := by
    have hlength : (s.take (countDigits s)).length = countDigits s :=
      List.length_take_of_le (runLength_le Decimal.isDigit s)
    rw [hnil] at hlength
    exact h hlength.symm
  all := all_take_runLength Decimal.isDigit s

theorem fraction_take (s : List Char) : Fraction (s.take (fractionLength s)) := by
  fun_cases fractionLength s with
  | case1 rest h => exact .none
  | case2 rest h =>
    rw [Nat.add_comm, List.take_succ_cons]
    exact .digits (run_take_countDigits h)
  | case3 => exact .none

theorem exponent_take (s : List Char) : Exponent (s.take (exponentLength s)) := by
  cases s with
  | nil => exact .none
  | cons c rest =>
    rw [exponentLength]
    by_cases hc : c = 'e' ∨ c = 'E'
    · rw [if_pos hc]
      simp only
      by_cases h : countDigits (rest.drop (signLength rest)) = 0
      · rw [if_pos h]
        exact .none
      · rw [if_neg h, Nat.add_assoc, Nat.add_comm 1, List.take_succ_cons, List.take_add]
        exact .digits hc (sign_take rest) (run_take_countDigits h)
    · rw [if_neg hc]
      exact .none

theorem matches_take_numberLength (hc : Decimal.isDigit c = true) (rest : List Char) :
    Matches .number ((c :: rest).take (numberLength (c :: rest))) := by
  have hdigits : countDigits (c :: rest) ≠ 0 := by simp [countDigits, hc]
  rw [numberLength, Nat.add_assoc, List.take_add, List.take_add, ← List.drop_drop]
  exact .number (run_take_countDigits hdigits) (fraction_take _) (exponent_take _)

theorem longest_number (hc : Decimal.isDigit c = true) : Longest .number (c :: rest)
    (c :: rest.take (numberLength (c :: rest) - 1)) := by
  have htake : c :: rest.take (numberLength (c :: rest) - 1) =
      (c :: rest).take (numberLength (c :: rest)) := by
    rw [← List.take_succ_cons, Nat.sub_add_cancel (numberLength_pos hc rest)]
  rw [htake]
  refine ⟨matches_take_numberLength hc rest, List.take_prefix _ _, fun other hother hbegins ↦ ?_⟩
  rw [List.length_take_of_le (numberLength_le _)]
  exact length_le_numberLength hother hbegins

/-! ## Rules -/

/-- When the first character opens no earlier kind, no earlier kind has a text here. -/
theorem Longest.firstLongest (h : Longest kind (c :: rest) text)
    (hopens : ∀ earlier ∈ kind.earlier, earlier.opens c = false) :
    FirstLongest kind (c :: rest) text where
  toLongest := h
  first earlier hearlier _ hother := not_prefix_of_opens (hopens earlier hearlier) hother

/-- The rules find the first kind that has a text here, and its longest text. -/
theorem firstLongest_rule (c : Char) (rest : List Char) :
    FirstLongest (rule c rest).1 (c :: rest) (c :: rest.take (rule c rest).2) := by
  by_cases hquote : c = '"'
  · subst hquote
    rw [rule_quote]
    cases hclosing : closingQuote? rest with
    | some n => exact (longest_string hclosing).firstLongest (by decide)
    | none =>
      refine ⟨longest_single (fun _ h ↦ by cases h; rfl) (.unknown '"'), ?_⟩
      intro earlier hearlier other hother
      have hopens : ∀ kind ∈ TokenKind.unknown.earlier, kind ≠ .string →
          kind.opens '"' = false := by decide
      by_cases hstring : earlier = .string
      · subst hstring
        exact not_string_of_closingQuote? hclosing hother
      · exact not_prefix_of_opens (hopens earlier hearlier hstring) hother
  by_cases hdigit : Decimal.isDigit c = true
  · rw [rule_of_isDigit hdigit]
    refine (longest_number hdigit).firstLongest ?_
    simp [TokenKind.earlier, TokenKind.inOrder, TokenKind.opens, hquote]
  by_cases hstart : isIdentifierStart c = true
  · rw [rule_of_isIdentifierStart hstart]
    refine (longest_run matches_identifier_iff hstart).firstLongest ?_
    simp [TokenKind.earlier, TokenKind.inOrder, TokenKind.opens, hquote, hdigit]
  by_cases hmark : c ∈ ['(', ')', '[', ']', '\x7b', '\x7d', ',', ';']
  · simp only [List.mem_cons, List.not_mem_nil, or_false] at hmark
    rcases hmark with rfl | rfl | rfl | rfl | rfl | rfl | rfl | rfl
    · exact (longest_single (fun _ h ↦ by cases h; rfl) .openParen).firstLongest (by decide)
    · exact (longest_single (fun _ h ↦ by cases h; rfl) .closeParen).firstLongest (by decide)
    · exact (longest_single (fun _ h ↦ by cases h; rfl) .openBracket).firstLongest (by decide)
    · exact (longest_single (fun _ h ↦ by cases h; rfl) .closeBracket).firstLongest (by decide)
    · exact (longest_single (fun _ h ↦ by cases h; rfl) .openBrace).firstLongest (by decide)
    · exact (longest_single (fun _ h ↦ by cases h; rfl) .closeBrace).firstLongest (by decide)
    · exact (longest_single (fun _ h ↦ by cases h; rfl) .comma).firstLongest (by decide)
    · exact (longest_single (fun _ h ↦ by cases h; rfl) .semicolon).firstLongest (by decide)
  simp only [List.mem_cons, List.not_mem_nil, or_false, not_or] at hmark
  have hother : rule c rest =
      if isOperatorChar c then (.operator, runLength isOperatorChar rest)
      else if Text.isBlank c then (.blank, runLength Text.isBlank rest)
      else (.unknown, 0) := by
    simp only [rule, hquote, hdigit, hstart, hmark, Bool.false_eq_true, if_false]
  rw [hother]
  by_cases hoperator : isOperatorChar c = true
  · rw [if_pos hoperator]
    refine (longest_run matches_operator_iff hoperator).firstLongest ?_
    simp [TokenKind.earlier, TokenKind.inOrder, TokenKind.opens, hquote, hdigit, hstart, hmark]
  rw [if_neg hoperator]
  by_cases hblank : Text.isBlank c = true
  · rw [if_pos hblank]
    refine (longest_run matches_blank_iff hblank).firstLongest ?_
    simp [TokenKind.earlier, TokenKind.inOrder, TokenKind.opens, hquote, hdigit, hstart, hmark,
      hoperator]
  rw [if_neg hblank]
  refine (longest_single (fun _ h ↦ by cases h; rfl) (.unknown c)).firstLongest ?_
  simp [TokenKind.earlier, TokenKind.inOrder, TokenKind.opens, hquote, hdigit, hstart, hmark,
    hoperator, hblank]

/-! ## Places -/

/-- Tokens that follow each other without gaps up to the byte `stop`, none of them empty. -/
def Contiguous (stop : Nat) : Nat → List Token → Prop
  | start, [] => start = stop
  | start, t :: rest => t.start = start ∧ t.start < t.stop ∧ Contiguous stop t.stop rest

/-- The token stands at its place in the text `x` and is the one that the grammar asks for. -/
structure Token.Taken (x : String) (t : Token) : Prop where
  ne_empty : t.text ≠ ""
  start : String.Pos.Raw.IsValid x ⟨t.start⟩
  stop : String.Pos.Raw.IsValid x ⟨t.stop⟩
  text : t.text.toByteArray = x.toByteArray.extract t.start t.stop
  firstLongest : ∃ before remaining, x = before ++ remaining ∧
    before.utf8ByteSize = t.start ∧ FirstLongest t.kind remaining.toList t.text.toList

theorem utf8ByteSize_ofList (s : List Char) : (String.ofList s).utf8ByteSize = byteLength s := by
  induction s with
  | nil => rfl
  | cons c rest ih =>
    rw [String.ofList_cons, String.utf8ByteSize_append, ih, String.utf8ByteSize_singleton]
    rfl

theorem byteLength_append (s t : List Char) :
    byteLength (s ++ t) = byteLength s + byteLength t := by
  rw [← utf8ByteSize_ofList, String.ofList_append, String.utf8ByteSize_append,
    utf8ByteSize_ofList, utf8ByteSize_ofList]

theorem byteLength_pos (c : Char) (rest : List Char) : 0 < byteLength (c :: rest) :=
  Nat.add_pos_left c.utf8Size_pos _

theorem contiguous_tokensFrom (start : Nat) (s : List Char) :
    Contiguous (start + byteLength s) start (tokensFrom start s) := by
  induction s using tokenwise generalizing start with
  | nil =>
    rw [tokensFrom]
    exact (Nat.add_zero start).symm
  | cons c rest ih =>
    have hsplit : byteLength (c :: rest) = byteLength (c :: rest.take (rule c rest).2) +
        byteLength (rest.drop (rule c rest).2) := by
      rw [← byteLength_append, List.cons_append, List.take_append_drop]
    rw [tokensFrom_cons, hsplit, ← Nat.add_assoc]
    exact ⟨rfl, Nat.lt_add_of_pos_right (byteLength_pos c _), ih _⟩

/-- A token is taken when the text around it is known. -/
theorem Token.taken_of_eq_append {x : String} {t : Token} {before behind : String}
    (hx : x = before ++ (t.text ++ behind)) (hne : t.text ≠ "")
    (hstart : before.utf8ByteSize = t.start) (hstop : t.stop = t.start + t.text.utf8ByteSize)
    (hfirst : FirstLongest t.kind (t.text ++ behind).toList t.text.toList) : t.Taken x where
  ne_empty := hne
  start := String.Pos.Raw.isValid_iff_exists_append.mpr
    ⟨before, t.text ++ behind, hx, by rw [← hstart]; rfl⟩
  stop := String.Pos.Raw.isValid_iff_exists_append.mpr
    ⟨before ++ t.text, behind, hx.trans String.append_assoc.symm, by
      rw [hstop, ← hstart, ← String.utf8ByteSize_append]; rfl⟩
  text := by
    rw [hx, hstop, ← hstart, String.toByteArray_append, String.toByteArray_append,
      ← String.size_toByteArray, ← String.size_toByteArray]
    have hshift := ByteArray.extract_append_size_add (a := before.toByteArray)
      (b := t.text.toByteArray ++ behind.toByteArray) (i := 0) (j := t.text.toByteArray.size)
    rw [Nat.add_zero] at hshift
    rw [hshift, ByteArray.extract_append_eq_left rfl]
  firstLongest := ⟨before, t.text ++ behind, hx, hstart, hfirst⟩

theorem taken_of_mem_tokensFrom {x : String} {before : List Char} (h : x.toList = before ++ s) :
    ∀ t ∈ tokensFrom (byteLength before) s, t.Taken x := by
  induction s using tokenwise generalizing before with
  | nil =>
    rw [tokensFrom]
    exact List.forall_mem_nil _
  | cons c rest ih =>
    have hsplit : c :: rest = c :: rest.take (rule c rest).2 ++ rest.drop (rule c rest).2 := by
      rw [List.cons_append, List.take_append_drop]
    rw [tokensFrom_cons]
    refine List.forall_mem_cons.mpr ⟨?_, ?_⟩
    · have hx : x = String.ofList before ++ (String.ofList (c :: rest.take (rule c rest).2) ++
          String.ofList (rest.drop (rule c rest).2)) := by
        rw [← String.ofList_append, ← hsplit, ← String.ofList_append, ← h, String.ofList_toList]
      refine Token.taken_of_eq_append hx ?_ ?_ ?_ ?_
      · exact fun hempty ↦ List.cons_ne_nil _ _ (String.ofList_eq_empty_iff.mp hempty)
      · exact utf8ByteSize_ofList before
      · rw [utf8ByteSize_ofList]
      · rw [← String.ofList_append, ← hsplit, String.toList_ofList, String.toList_ofList]
        exact firstLongest_rule c rest
    · rw [← byteLength_append]
      refine ih ?_
      rw [h, List.append_assoc, ← hsplit]

/-- The tokens of a text follow each other from its first byte to its last one, and each of them is
the longest text, of the first kind that has one, with which the rest of the text begins. -/
theorem tokenize_longest (x : String) :
    Contiguous x.utf8ByteSize 0 (tokenize x) ∧ ∀ t ∈ tokenize x, t.Taken x := by
  constructor
  · have hcontiguous := contiguous_tokensFrom 0 x.toList
    rw [Nat.zero_add, ← utf8ByteSize_ofList, String.ofList_toList] at hcontiguous
    exact hcontiguous
  · have hwhole : x.toList = [] ++ x.toList := rfl
    exact taken_of_mem_tokensFrom hwhole

/-! ## Uniqueness -/

theorem TokenKind.eq_or_mem_earlier (k l : TokenKind) : k = l ∨ k ∈ l.earlier ∨ l ∈ k.earlier := by
  cases k <;> cases l <;> decide

/-- The grammar asks for one kind and one text. -/
theorem FirstLongest.unique {k l : TokenKind} {text other : List Char}
    (h : FirstLongest k s text) (h' : FirstLongest l s other) : k = l ∧ text = other := by
  obtain rfl : k = l := by
    rcases TokenKind.eq_or_mem_earlier k l with heq | hk | hl
    · exact heq
    · exact absurd h.isPrefix (h'.first k hk text h.belongs)
    · exact absurd h'.isPrefix (h.first l hl other h'.belongs)
  refine ⟨rfl, ?_⟩
  have hlength : text.length = other.length :=
    Nat.le_antisymm (h'.length_le text h.belongs h.isPrefix)
      (h.length_le other h'.belongs h'.isPrefix)
  rw [List.prefix_iff_eq_take.mp h.isPrefix, List.prefix_iff_eq_take.mp h'.isPrefix, hlength]

theorem eq_nil_of_byteLength_eq_zero (h : byteLength s = 0) : s = [] := by
  cases s with
  | nil => rfl
  | cons c rest => exact absurd h (Nat.ne_of_gt (byteLength_pos c rest))

/-- A place in a text is known by its bytes. -/
theorem append_inj_of_byteLength {b b' r r' : List Char} (h : b ++ r = b' ++ r')
    (hbytes : byteLength b = byteLength b') : r = r' := by
  rcases List.append_eq_append_iff.mp h with ⟨m, rfl, rfl⟩ | ⟨m, rfl, rfl⟩
  · rw [byteLength_append] at hbytes
    rw [eq_nil_of_byteLength_eq_zero (s := m) (by omega), List.nil_append]
  · rw [byteLength_append] at hbytes
    rw [eq_nil_of_byteLength_eq_zero (s := m) (by omega), List.nil_append]

theorem Token.Taken.stop_eq {x : String} {t : Token} (h : t.Taken x) (hle : t.start ≤ t.stop) :
    t.stop = t.start + t.text.utf8ByteSize ∧ t.stop ≤ x.utf8ByteSize := by
  have hstop : t.stop ≤ x.utf8ByteSize := h.stop.le_rawEndPos
  have hsize := congrArg ByteArray.size h.text
  rw [ByteArray.size_extract, String.size_toByteArray, String.size_toByteArray] at hsize
  omega

theorem eq_tokensFrom {x : String} {before : List Char} {tokens : List Token}
    (h : x.toList = before ++ s)
    (hcontiguous : Contiguous x.utf8ByteSize (byteLength before) tokens)
    (htaken : ∀ t ∈ tokens, t.Taken x) : tokens = tokensFrom (byteLength before) s := by
  have hsize : x.utf8ByteSize = byteLength before + byteLength s := by
    rw [← byteLength_append, ← h, ← utf8ByteSize_ofList, String.ofList_toList]
  induction s using tokenwise generalizing before tokens with
  | nil =>
    cases tokens with
    | nil => rw [tokensFrom]
    | cons t rest =>
      obtain ⟨hstart, hlt, -⟩ := hcontiguous
      have hstop := (htaken t List.mem_cons_self).stop_eq hlt.le
      rw [byteLength] at hsize
      omega
  | cons c rest ih =>
    cases tokens with
    | nil =>
      have hpos := byteLength_pos c rest
      have hend : byteLength before = x.utf8ByteSize := hcontiguous
      omega
    | cons t others =>
      obtain ⟨hstart, hlt, hothers⟩ := hcontiguous
      have ht := htaken t List.mem_cons_self
      obtain ⟨hstop, -⟩ := ht.stop_eq hlt.le
      obtain ⟨b, remaining, hx, hb, hfirst⟩ := ht.firstLongest
      have hremaining : remaining.toList = c :: rest := by
        have hchars : b.toList ++ remaining.toList = before ++ c :: rest := by
          rw [← String.toList_append, ← hx, h]
        have hbytes : byteLength b.toList = byteLength before := by
          rw [← utf8ByteSize_ofList, String.ofList_toList, hb, hstart]
        exact append_inj_of_byteLength hchars hbytes
      rw [hremaining] at hfirst
      obtain ⟨hkind, htext⟩ := hfirst.unique (firstLongest_rule c rest)
      have hwidth : t.text.utf8ByteSize = byteLength (c :: rest.take (rule c rest).2) := by
        rw [← htext, ← utf8ByteSize_ofList, String.ofList_toList]
      have hbytes : byteLength (before ++ c :: rest.take (rule c rest).2) = t.stop := by
        rw [byteLength_append, hstop, hwidth, hstart]
      have hsplit : before ++ c :: rest = before ++ c :: rest.take (rule c rest).2 ++
          rest.drop (rule c rest).2 := by
        rw [List.append_assoc, List.cons_append, List.take_append_drop]
      have hbehind := ih (h.trans hsplit) (hbytes ▸ hothers)
        (fun u hu ↦ htaken u (List.mem_cons_of_mem t hu))
        (by rw [← byteLength_append, ← hsplit, byteLength_append, hsize])
      rw [tokensFrom_cons, ← hwidth, ← htext, String.ofList_toList, ← hkind, ← hstart, ← hstop,
        hbehind, hbytes]

/-- A text has no other tokens that follow each other through it and that the grammar asks for. -/
theorem eq_tokenize {x : String} {tokens : List Token}
    (hcontiguous : Contiguous x.utf8ByteSize 0 tokens) (htaken : ∀ t ∈ tokens, t.Taken x) :
    tokens = tokenize x := by
  have hwhole : x.toList = [] ++ x.toList := rfl
  exact eq_tokensFrom hwhole hcontiguous htaken

end SheetPackages.Formula
