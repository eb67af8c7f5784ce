import Mathlib.Data.List.Basic
import SheetPackages.Formula.Token

/-!
# What lexer rules look at

A rule looks beyond the end of its token: a run and a number at the next characters, a string at
all quotes up to the end of the text. Two continuations are alike when they agree in what rules can
see of them, an identifier being seen no further than that it begins one. A rule takes the same
token before either of them; only a number has to be followed by something other than an
identifier, since it could take the beginning of one as its exponent.
-/

namespace SheetPackages.Formula

/-! ## Classes of characters -/

theorem isIdentifierStart_iff {c : Char} : isIdentifierStart c = true ↔
    97 ≤ c.toNat ∧ c.toNat ≤ 122 ∨ 65 ≤ c.toNat ∧ c.toNat ≤ 90 ∨ c.toNat = 95 := by
  have h0 : ('a' : Char).val.toNat = 97 := rfl
  have h1 : ('z' : Char).val.toNat = 122 := rfl
  have h2 : ('A' : Char).val.toNat = 65 := rfl
  have h3 : ('Z' : Char).val.toNat = 90 := rfl
  have h4 : ('_' : Char).val.toNat = 95 := rfl
  simp only [isIdentifierStart, Text.isLetter, Bool.or_eq_true, Bool.and_eq_true,
    decide_eq_true_eq, beq_iff_eq, Char.le_def, UInt32.le_iff_toNat_le, Char.ext_iff,
    ← UInt32.toNat_inj, Char.toNat, h0, h1, h2, h3, h4, or_assoc]

variable {c : Char}

theorem ne_of_isIdentifierStart (h : isIdentifierStart c = true) {d : Char}
    (hd : isIdentifierStart d = false) : c ≠ d := by
  rintro rfl
  rw [h] at hd
  cases hd

theorem isDigit_of_isIdentifierStart (h : isIdentifierStart c = true) :
    Decimal.isDigit c = false := by
  have hc := isIdentifierStart_iff.mp h
  have h0 : ('0' : Char).val.toNat = 48 := rfl
  have h9 : ('9' : Char).val.toNat = 57 := rfl
  simp only [Char.toNat] at hc
  simp only [Decimal.isDigit, Bool.and_eq_false_iff, decide_eq_false_iff_not, Char.le_def,
    UInt32.le_iff_toNat_le, h0, h9]
  omega

theorem isBlank_of_isIdentifierStart (h : isIdentifierStart c = true) :
    Text.isBlank c = false := by
  have hc := isIdentifierStart_iff.mp h
  simp only [Text.isBlank, Bool.or_eq_false_iff, Bool.and_eq_false_iff, decide_eq_false_iff_not,
    beq_eq_false_iff_ne]
  omega

theorem isOperatorChar_of_isIdentifierStart (h : isIdentifierStart c = true) :
    isOperatorChar c = false := by
  simp only [isOperatorChar, decide_eq_false_iff_not]
  intro hmem
  have hnone : (['+', '-', '*', '/', '^', '&', '=', '<', '>', '!', ':'].all
      fun d ↦ !isIdentifierStart d) = true := by decide
  have hc := List.all_eq_true.mp hnone c hmem
  rw [h] at hc
  cases hc

theorem isIdentifierRest_of_isIdentifierStart (h : isIdentifierStart c = true) :
    isIdentifierRest c = true := by
  simp only [isIdentifierStart, Bool.or_eq_true] at h
  simp only [isIdentifierRest, Text.isAlphanumeric, Bool.or_eq_true]
  tauto

/-! ## Openings -/

/-- The first character of a text, where any beginning of an identifier counts as `_`. -/
def opening (s : List Char) : Option Char :=
  s.head?.map fun c ↦ if isIdentifierStart c then '_' else c

theorem opening_of_isIdentifierStart (h : isIdentifierStart c = true) (rest : List Char) :
    opening (c :: rest) = some '_' := by
  simp [opening, h]

/-- Openings agree in every class of characters that treats beginnings of identifiers alike. -/
theorem any_head?_of_opening_eq {p : Char → Bool}
    (hp : ∀ c, isIdentifierStart c = true → p c = p '_') {s t : List Char}
    (h : opening s = opening t) : s.head?.any p = t.head?.any p := by
  have hopening (s : List Char) : s.head?.any p = (opening s).any p := by
    cases s with
    | nil => rfl
    | cons c rest =>
      by_cases hc : isIdentifierStart c = true
      · simp [opening, hc, hp c hc]
      · simp [opening, hc]
  rw [hopening, hopening, h]

/-- Only identifiers may begin with another character. -/
theorem head?_of_opening_eq {s t : List Char} (h : opening s = opening t)
    (hs : s.head? = some c) (hc : isIdentifierStart c = false) : t.head? = some c := by
  have hclass : t.head?.any (· == c) = true := by
    rw [← any_head?_of_opening_eq (p := (· == c)) ?_ h, hs]
    · simp
    · intro d hd
      have hunderscore : ('_' == c) = false :=
        beq_false_of_ne (ne_of_isIdentifierStart (by decide) hc)
      rw [hunderscore]
      exact beq_false_of_ne (ne_of_isIdentifierStart hd hc)
  cases ht : t.head? with
  | none => simp [ht] at hclass
  | some d => simpa [ht] using hclass

/-- What rules can see of a text behind their token agrees. -/
structure Alike (s t : List Char) : Prop where
  opening : opening s = opening t
  quotes : s.count '"' = t.count '"'
  behindPoint : s.head? = some '.' → Formula.opening s.tail = Formula.opening t.tail

variable {u s t : List Char}

/-! ## Runs -/

theorem runLength_cons (p : Char → Bool) (c : Char) (rest : List Char) :
    runLength p (c :: rest) = if p c then runLength p rest + 1 else 0 := by
  by_cases hc : p c <;> simp [runLength, hc]

theorem runLength_eq_zero_iff {p : Char → Bool} : runLength p s = 0 ↔ s.head?.any p = false := by
  cases s with
  | nil => simp [runLength]
  | cons c rest => by_cases hc : p c <;> simp [runLength_cons, hc]

theorem runLength_le (p : Char → Bool) (s : List Char) : runLength p s ≤ s.length :=
  (List.takeWhile_sublist p).length_le

/-- A run that ends within `u` is decided by `u` and the class of the character behind it. -/
theorem runLength_append_eq {p : Char → Bool} (hends : runLength p (u ++ s) ≤ u.length)
    (hhead : s.head?.any p = t.head?.any p) : runLength p (u ++ t) = runLength p (u ++ s) := by
  induction u with
  | nil =>
    have hs : runLength p s = 0 := Nat.le_zero.mp hends
    rw [List.nil_append, List.nil_append, hs, runLength_eq_zero_iff, ← hhead]
    exact runLength_eq_zero_iff.mp hs
  | cons c rest ih =>
    rw [List.cons_append, runLength_cons] at hends
    rw [List.cons_append, List.cons_append, runLength_cons, runLength_cons]
    by_cases hc : p c = true
    · rw [if_pos hc, List.length_cons] at hends
      rw [if_pos hc, if_pos hc, ih (Nat.le_of_succ_le_succ hends)]
    · rw [if_neg hc, if_neg hc]

/-- A run covers just `u` when `u` belongs to it and the character behind `u` does not. -/
theorem runLength_append_eq_length_iff {p : Char → Bool} :
    runLength p (u ++ s) = u.length ↔ (∀ c ∈ u, p c = true) ∧ s.head?.any p = false := by
  induction u with
  | nil => simp [runLength_eq_zero_iff]
  | cons c rest ih => by_cases hc : p c = true <;> simp [runLength_cons, hc, ih]

/-! ## Numbers -/

theorem Alike.isDigit (h : Alike s t) :
    s.head?.any Decimal.isDigit = t.head?.any Decimal.isDigit :=
  any_head?_of_opening_eq (fun _ hc ↦ isDigit_of_isIdentifierStart hc) h.opening

theorem fractionLength_of_ne_point {s : List Char} (h : s.head? ≠ some '.') :
    fractionLength s = 0 := by
  unfold fractionLength
  split
  · exact absurd rfl h
  · rfl

/-- Behind a number without fraction, no fraction appears. -/
theorem Alike.fractionLength (h : Alike s t) (hs : fractionLength s = 0) :
    Formula.fractionLength t = 0 := by
  by_cases hpoint : s.head? = some '.'
  · obtain ⟨more, rfl⟩ := List.head?_eq_some_iff.mp hpoint
    obtain ⟨others, rfl⟩ := List.head?_eq_some_iff.mp (head?_of_opening_eq h.opening hpoint rfl)
    have hdigit : more.head?.any Decimal.isDigit = others.head?.any Decimal.isDigit :=
      any_head?_of_opening_eq (fun _ hc ↦ isDigit_of_isIdentifierStart hc) (h.behindPoint hpoint)
    have hmore : countDigits more = 0 := by
      rw [Formula.fractionLength] at hs
      split at hs
      · assumption
      · omega
    have hothers : countDigits others = 0 := by
      rw [countDigits, ← runLength, runLength_eq_zero_iff, ← hdigit]
      exact runLength_eq_zero_iff.mp hmore
    rw [Formula.fractionLength, if_pos hothers]
  · refine fractionLength_of_ne_point fun ht ↦ hpoint ?_
    exact head?_of_opening_eq h.opening.symm ht rfl

theorem fractionLength_append_eq (h : Alike s t) (hends : fractionLength (u ++ s) ≤ u.length) :
    fractionLength (u ++ t) = fractionLength (u ++ s) := by
  cases u with
  | nil =>
    have hs : fractionLength s = 0 := Nat.le_zero.mp hends
    rw [List.nil_append, List.nil_append, hs, h.fractionLength hs]
  | cons c rest =>
    by_cases hc : c = '.'
    · subst hc
      have hdigits : countDigits (rest ++ s) ≤ rest.length := by
        rw [List.cons_append, fractionLength, List.length_cons] at hends
        split at hends <;> omega
      have hsame : countDigits (rest ++ t) = countDigits (rest ++ s) :=
        runLength_append_eq hdigits h.isDigit
      rw [List.cons_append, List.cons_append, fractionLength, fractionLength, hsame]
    · have hnone (behind : List Char) : fractionLength (c :: behind) = 0 :=
        fractionLength_of_ne_point fun heq ↦ hc (Option.some.inj heq)
      rw [List.cons_append, List.cons_append, hnone, hnone]

theorem exponentLength_of_not_start (h : s.head?.any isIdentifierStart = false) :
    exponentLength s = 0 := by
  cases s with
  | nil => rfl
  | cons c rest =>
    have hc : isIdentifierStart c = false := by simpa using h
    refine if_neg ?_
    rintro (rfl | rfl) <;> exact absurd hc (by decide)

theorem signLength_append (hu : u ≠ []) (s : List Char) : signLength (u ++ s) = signLength u := by
  cases u with
  | nil => exact absurd rfl hu
  | cons c rest => rfl

/-- Where no identifier follows, no exponent begins. -/
theorem Alike.exponentLength (h : Alike s t) (hs : s.head?.any isIdentifierStart = false) :
    Formula.exponentLength t = 0 := by
  refine exponentLength_of_not_start ?_
  rw [← hs]
  refine (any_head?_of_opening_eq (fun c hc ↦ ?_) h.opening).symm
  exact hc.trans (by decide)

/-- An exponent that ends with `u` is decided by `u`, unless another one begins behind it. -/
theorem exponentLength_append_eq (h : Alike s t)
    (hexponent : exponentLength s = 0 → exponentLength t = 0)
    (hends : exponentLength (u ++ s) = u.length) : exponentLength (u ++ t) = u.length := by
  cases u with
  | nil => exact hexponent hends
  | cons c rest =>
    rw [List.cons_append, exponentLength, List.length_cons] at hends
    rw [List.cons_append, exponentLength, List.length_cons]
    by_cases hc : c = 'e' ∨ c = 'E'
    · rw [if_pos hc] at hends ⊢
      have hrest : rest ≠ [] := by
        rintro rfl
        simp only [List.nil_append, List.length_nil] at hends
        split at hends <;> omega
      simp only [signLength_append hrest] at hends ⊢
      have hsign : signLength rest ≤ rest.length := by
        cases rest with
        | nil => exact absurd rfl hrest
        | cons d more =>
          rw [signLength, List.length_cons]
          split <;> omega
      have hlength : (rest.drop (signLength rest)).length = rest.length - signLength rest :=
        List.length_drop
      rw [List.drop_append_of_le_length hsign] at hends ⊢
      have hsame : countDigits (rest.drop (signLength rest) ++ t) =
          countDigits (rest.drop (signLength rest) ++ s) := by
        refine runLength_append_eq ?_ h.isDigit
        change countDigits (rest.drop (signLength rest) ++ s) ≤ _
        split at hends <;> omega
      rw [hsame]
      exact hends
    · rw [if_neg hc] at hends
      cases hends

/-- A number that ends with `u` is decided by `u`, unless an exponent begins behind it. -/
theorem numberLength_append_eq (h : Alike s t)
    (hexponent : exponentLength s = 0 → exponentLength t = 0)
    (hends : numberLength (u ++ s) = u.length) : numberLength (u ++ t) = u.length := by
  simp only [numberLength] at hends ⊢
  have hwhole : countDigits (u ++ t) = countDigits (u ++ s) := by
    refine runLength_append_eq ?_ h.isDigit
    change countDigits (u ++ s) ≤ u.length
    omega
  rw [hwhole]
  generalize countDigits (u ++ s) = whole at hends ⊢
  have hle : whole ≤ u.length := by omega
  rw [List.drop_append_of_le_length hle] at hends ⊢
  have hfraction : fractionLength (u.drop whole ++ t) = fractionLength (u.drop whole ++ s) := by
    refine fractionLength_append_eq h ?_
    rw [List.length_drop]
    omega
  rw [hfraction]
  generalize fractionLength (u.drop whole ++ s) = fraction at hends ⊢
  have hmantissa : whole + fraction ≤ u.length := by omega
  rw [List.drop_append_of_le_length hmantissa] at hends ⊢
  have hlast := exponentLength_append_eq (u := u.drop (whole + fraction)) h hexponent
    (by rw [List.length_drop]; omega)
  rw [hlast, List.length_drop]
  omega

theorem numberLength_pos (hc : Decimal.isDigit c = true) (rest : List Char) :
    0 < numberLength (c :: rest) := by
  have hdigits : 0 < countDigits (c :: rest) := by simp [countDigits, hc]
  simp only [numberLength]
  omega

theorem numberLength_le (s : List Char) : numberLength s ≤ s.length := by
  have hdigits (s : List Char) : countDigits s ≤ s.length := runLength_le _ s
  have hfraction (s : List Char) : fractionLength s ≤ s.length := by
    unfold fractionLength
    split
    · next rest =>
      have hrest := hdigits rest
      rw [List.length_cons]
      split <;> omega
    · exact Nat.zero_le _
  have hexponent (s : List Char) : exponentLength s ≤ s.length := by
    cases s with
    | nil => exact Nat.le_refl 0
    | cons c rest =>
      have hrest := hdigits (rest.drop (signLength rest))
      rw [List.length_drop] at hrest
      simp only [exponentLength, List.length_cons]
      split
      · split <;> omega
      · exact Nat.zero_le _
  simp only [numberLength]
  have h1 := hdigits s
  have h2 := hfraction (s.drop (countDigits s))
  have h3 := hexponent (s.drop (countDigits s + fractionLength (s.drop (countDigits s))))
  rw [List.length_drop] at h2 h3
  omega

/-! ## Strings -/

theorem closingQuote?_pair (rest : List Char) : closingQuote? ('"' :: '"' :: rest) =
    some ((closingQuote? rest).elim 1 (· + 2)) := by
  rw [closingQuote?]
  cases closingQuote? rest <;> rfl

theorem closingQuote?_of_single (h : s.head? ≠ some '"') : closingQuote? ('"' :: s) = some 1 := by
  rw [closingQuote?, if_pos rfl]
  rintro rest - rfl
  exact h rfl

theorem closingQuote?_of_ne (hc : c ≠ '"') (rest : List Char) :
    closingQuote? (c :: rest) = (closingQuote? rest).map (· + 1) := by
  rw [closingQuote?, if_neg hc]
  exact fun _ heq _ ↦ hc heq

theorem closingQuote?_eq_none_iff : closingQuote? s = none ↔ s.count '"' = 0 := by
  fun_induction closingQuote? s <;> simp_all

theorem closingQuote?_ne_zero : closingQuote? s ≠ some 0 := by
  fun_cases closingQuote? s <;> simp

/-- Where a string ends depends on the quotes behind it alone. -/
theorem closingQuote?_append_eq (h : Alike s t) : ∀ {u : List Char},
    closingQuote? (u ++ s) = some u.length → closingQuote? (u ++ t) = some u.length
  | [], hends => absurd hends closingQuote?_ne_zero
  | [c], hends => by
    by_cases hc : c = '"'
    · subst hc
      -- Of two quotes, the first one closes the string only if no other quote follows.
      by_cases ht : t.head? = some '"'
      · obtain ⟨others, rfl⟩ := List.head?_eq_some_iff.mp ht
        obtain ⟨more, rfl⟩ := List.head?_eq_some_iff.mp
          (head?_of_opening_eq h.opening.symm ht (by decide))
        have hcount : more.count '"' = others.count '"' := by simpa using h.quotes
        have hmore : closingQuote? more = none := by
          rw [List.singleton_append, closingQuote?_pair] at hends
          cases hmore : closingQuote? more with
          | none => rfl
          | some n => simp [hmore] at hends
        have hothers : closingQuote? others = none := by
          rw [closingQuote?_eq_none_iff, ← hcount]
          exact closingQuote?_eq_none_iff.mp hmore
        rw [List.singleton_append, closingQuote?_pair, hothers]
        rfl
      · exact closingQuote?_of_single ht
    · rw [List.singleton_append, closingQuote?_of_ne hc] at hends
      have hzero : closingQuote? s = some 0 := by simpa using hends
      exact absurd hzero closingQuote?_ne_zero
  | c :: d :: rest, hends => by
    by_cases hc : c = '"'
    · subst hc
      by_cases hd : d = '"'
      · subst hd
        rw [List.cons_append, List.cons_append, closingQuote?_pair] at hends
        have hrest : closingQuote? (rest ++ s) = some rest.length := by
          cases hrest : closingQuote? (rest ++ s) with
          | none => simp [hrest] at hends
          | some n => simpa [hrest] using hends
        rw [List.cons_append, List.cons_append, closingQuote?_pair,
          closingQuote?_append_eq h hrest]
        rfl
      · rw [List.cons_append, closingQuote?_of_single (by simpa using hd)] at hends
        simp at hends
    · rw [List.cons_append, closingQuote?_of_ne hc] at hends
      have hrest : closingQuote? (d :: rest ++ s) = some (d :: rest).length := by
        simpa using hends
      rw [List.cons_append, closingQuote?_of_ne hc, closingQuote?_append_eq h hrest]
      rfl

theorem closingQuote?_le {n : Nat} (h : closingQuote? s = some n) : n ≤ s.length := by
  induction s using closingQuote?.induct generalizing n with
  | case1 => cases h
  | case2 rest m hrest ih =>
    rw [closingQuote?_pair, hrest, Option.elim_some, Option.some.injEq] at h
    have hm := ih hrest
    rw [List.length_cons, List.length_cons]
    omega
  | case3 rest hrest ih =>
    rw [closingQuote?_pair, hrest, Option.elim_none, Option.some.injEq] at h
    rw [List.length_cons]
    omega
  | case4 rest hsingle =>
    have hhead : rest.head? ≠ some '"' := fun hhead ↦
      (List.head?_eq_some_iff.mp hhead).elim fun more heq ↦ hsingle more rfl heq
    rw [closingQuote?_of_single hhead, Option.some.injEq] at h
    rw [List.length_cons]
    omega
  | case5 c rest _ hc ih =>
    rw [closingQuote?_of_ne hc] at h
    obtain ⟨m, hm, rfl⟩ := Option.map_eq_some_iff.mp h
    exact Nat.succ_le_succ (ih hm)

/-! ## Rules -/

/-- The three ways in which a rule finds the end of a token. -/
inductive Ends (c : Char) : Prop
  | string (hc : c = '"')
  | number (hc : Decimal.isDigit c = true)
      (hrule : ∀ rest, rule c rest = (.number, numberLength (c :: rest) - 1))
  | run (kind : TokenKind) (p : Char → Bool)
      (hkind : kind = .identifier ↔ isIdentifierStart c = true)
      (hp : ∀ d, isIdentifierStart d = true → p d = p '_')
      (hrule : ∀ rest, rule c rest = (kind, runLength p rest))

theorem runLength_false (rest : List Char) : runLength (fun _ ↦ false) rest = 0 :=
  runLength_eq_zero_iff.mpr (by cases rest <;> rfl)

/-- A single character is a run without further characters. -/
theorem Ends.single (kind : TokenKind) (hkind : kind ≠ .identifier)
    (hc : isIdentifierStart c = false) (hrule : ∀ rest, rule c rest = (kind, 0)) : Ends c := by
  refine .run kind (fun _ ↦ false) (by simp [hkind, hc]) (fun _ _ ↦ rfl) fun rest ↦ ?_
  rw [hrule, runLength_false]

theorem rule_of_isIdentifierStart (hc : isIdentifierStart c = true) (rest : List Char) :
    rule c rest = (.identifier, runLength isIdentifierRest rest) := by
  rw [rule, if_neg (ne_of_isIdentifierStart hc (by decide)),
    if_neg (by simp [isDigit_of_isIdentifierStart hc]), if_pos hc]

theorem rule_of_isDigit (hc : Decimal.isDigit c = true) (rest : List Char) :
    rule c rest = (.number, numberLength (c :: rest) - 1) := by
  have hquote : c ≠ '"' := by
    rintro rfl
    cases hc
  rw [rule, if_neg hquote, if_pos hc]

theorem ends (c : Char) : Ends c := by
  by_cases hquote : c = '"'
  · exact .string hquote
  by_cases hdigit : Decimal.isDigit c = true
  · exact .number hdigit (rule_of_isDigit hdigit)
  by_cases hstart : isIdentifierStart c = true
  · exact .run .identifier isIdentifierRest (by simp [hstart])
      (fun d hd ↦ isIdentifierRest_of_isIdentifierStart hd) (rule_of_isIdentifierStart hstart)
  by_cases hmark : c ∈ ['(', ')', '[', ']', '\x7b', '\x7d', ',', ';']
  · simp only [List.mem_cons, List.not_mem_nil, or_false] at hmark
    rcases hmark with rfl | rfl | rfl | rfl | rfl | rfl | rfl | rfl
    · exact .single .openParen (by decide) (by decide) fun _ ↦ rfl
    · exact .single .closeParen (by decide) (by decide) fun _ ↦ rfl
    · exact .single .openBracket (by decide) (by decide) fun _ ↦ rfl
    · exact .single .closeBracket (by decide) (by decide) fun _ ↦ rfl
    · exact .single .openBrace (by decide) (by decide) fun _ ↦ rfl
    · exact .single .closeBrace (by decide) (by decide) fun _ ↦ rfl
    · exact .single .comma (by decide) (by decide) fun _ ↦ rfl
    · exact .single .semicolon (by decide) (by decide) fun _ ↦ rfl
  simp only [List.mem_cons, List.not_mem_nil, or_false, not_or] at hmark
  obtain ⟨h1, h2, h3, h4, h5, h6, h7, h8⟩ := hmark
  have hother (rest : List Char) : rule c rest =
      if isOperatorChar c then (.operator, runLength isOperatorChar rest)
      else if Text.isBlank c then (.blank, runLength Text.isBlank rest)
      else (.unknown, 0) := by
    rw [rule, if_neg hquote, if_neg hdigit, if_neg hstart, if_neg h1, if_neg h2, if_neg h3,
      if_neg h4, if_neg h5, if_neg h6, if_neg h7, if_neg h8]
  by_cases hoperator : isOperatorChar c = true
  · exact .run .operator isOperatorChar (by simp [hstart])
      (fun d hd ↦ isOperatorChar_of_isIdentifierStart hd)
      fun rest ↦ by rw [hother, if_pos hoperator]
  by_cases hblank : Text.isBlank c = true
  · exact .run .blank Text.isBlank (by simp [hstart])
      (fun d hd ↦ isBlank_of_isIdentifierStart hd)
      fun rest ↦ by rw [hother, if_neg hoperator, if_pos hblank]
  exact .single .unknown (by decide) (by simpa using hstart)
    fun rest ↦ by rw [hother, if_neg hoperator, if_neg hblank]

theorem rule_quote (rest : List Char) :
    rule '"' rest = (closingQuote? rest).elim (.unknown, 0) (.string, ·) := by
  rw [rule, if_pos rfl]
  cases closingQuote? rest <;> rfl

/-- Identifiers are the tokens that begin as identifiers do. -/
theorem rule_fst_eq_identifier_iff {rest : List Char} :
    (rule c rest).1 = .identifier ↔ isIdentifierStart c = true := by
  cases ends c with
  | string hc =>
    subst hc
    rw [rule_quote]
    have hstart : isIdentifierStart '"' = false := by decide
    cases closingQuote? rest <;> simp [hstart]
  | number hc hrule =>
    have hstart : isIdentifierStart c ≠ true := fun hstart ↦ by
      rw [isDigit_of_isIdentifierStart hstart] at hc
      cases hc
    simp [hrule, hstart]
  | run kind p hkind hp hrule => rw [hrule, hkind]

/-- Before alike continuations, a rule takes the same token. -/
theorem rule_append_eq {kind : TokenKind} (h : Alike s t)
    (hs : kind = .number → s.head?.any isIdentifierStart = false)
    (hrule : rule c (u ++ s) = (kind, u.length)) : rule c (u ++ t) = (kind, u.length) := by
  cases ends c with
  | string hc =>
    subst hc
    rw [rule_quote] at hrule ⊢
    cases hclosing : closingQuote? (u ++ s) with
    | none =>
      rw [hclosing, Option.elim_none, Prod.mk.injEq] at hrule
      have hu : u = [] := List.eq_nil_of_length_eq_zero hrule.2.symm
      subst hu
      have ht : closingQuote? ([] ++ t) = none := by
        rw [closingQuote?_eq_none_iff] at hclosing ⊢
        exact h.quotes.symm.trans hclosing
      rw [ht]
      exact Prod.ext hrule.1 hrule.2
    | some n =>
      rw [hclosing, Option.elim_some, Prod.mk.injEq] at hrule
      obtain ⟨rfl, rfl⟩ := hrule
      rw [closingQuote?_append_eq h hclosing, Option.elim_some]
  | number hc hnumber =>
    rw [hnumber, Prod.mk.injEq] at hrule
    obtain ⟨rfl, hlength⟩ := hrule
    have hends : numberLength (c :: u ++ s) = (c :: u).length := by
      have hpos := numberLength_pos hc (u ++ s)
      rw [List.cons_append, List.length_cons]
      omega
    have hsame := numberLength_append_eq h (fun _ ↦ h.exponentLength (hs rfl)) hends
    rw [List.cons_append] at hsame
    rw [hnumber, hsame]
    rfl
  | run kind' p hkind hp hrun =>
    rw [hrun, Prod.mk.injEq] at hrule
    obtain ⟨rfl, hlength⟩ := hrule
    have hhead : s.head?.any p = t.head?.any p := any_head?_of_opening_eq hp h.opening
    rw [hrun, runLength_append_eq (Nat.le_of_eq hlength) hhead, hlength]

/-- A token ends within its text. -/
theorem rule_snd_le (c : Char) (rest : List Char) : (rule c rest).2 ≤ rest.length := by
  cases ends c with
  | string hc =>
    subst hc
    rw [rule_quote]
    cases hclosing : closingQuote? rest with
    | none => exact Nat.zero_le _
    | some n => exact closingQuote?_le hclosing
  | number hc hrule =>
    have hle := numberLength_le (c :: rest)
    rw [hrule]
    rw [List.length_cons] at hle
    exact Nat.sub_le_of_le_add hle
  | run kind p hkind hp hrule =>
    rw [hrule]
    exact runLength_le p rest

end SheetPackages.Formula
