import Mathlib.Data.List.Chain
import Mathlib.Data.List.Forall2
import SheetPackages.Proofs.Formula.Lookahead

/-!
# Respelled tokens

When identifiers of a text are written as other identifiers, the new text has the same tokens, in
their order and of their kinds, with the new texts: no text merges with a neighbour or is split.
The only exception would be an identifier directly behind a number, such as `e5` in `1e5`.
-/

namespace SheetPackages.Formula

/-- A letter or `_`, then letters, digits, `_` and `.`. -/
def isIdentifier : List Char → Bool
  | [] => false
  | c :: rest => isIdentifierStart c && rest.all isIdentifierRest

/-- No identifier stands directly behind a number. -/
def NumbersApart (tokens : List Token) : Prop :=
  tokens.IsChain fun t u ↦ t.kind = .number → u.kind ≠ .identifier

instance (tokens : List Token) : Decidable (NumbersApart tokens) :=
  inferInstanceAs (Decidable (tokens.IsChain _))

namespace Token

/-- A token without its place. -/
def unplaced (t : Token) : Token :=
  { t with start := 0, stop := 0 }

/-- `u` can stand where `t` stands: their texts are the same, or both are identifiers. -/
structure Respelled (t u : Token) : Prop where
  kind : u.kind = t.kind
  text : u.text = t.text ∨ t.kind = .identifier ∧ isIdentifier u.text.toList = true

end Token

open Token (Respelled unplaced)

/-! ## Texts of tokens -/

/-- Induction along the tokens of a text. -/
theorem tokenwise {P : List Char → Prop} (nil : P [])
    (cons : ∀ c rest, P (rest.drop (rule c rest).2) → P (c :: rest)) (s : List Char) : P s := by
  induction hn : s.length using Nat.strongRecOn generalizing s with
  | _ n ih =>
    cases s with
    | nil => exact nil
    | cons c rest =>
      refine cons c rest (ih _ ?_ _ rfl)
      rw [← hn, List.length_drop, List.length_cons]
      omega

theorem tokensFrom_cons (start : Nat) (c : Char) (rest : List Char) :
    tokensFrom start (c :: rest) =
      ⟨(rule c rest).1, String.ofList (c :: rest.take (rule c rest).2), start,
        start + byteLength (c :: rest.take (rule c rest).2)⟩ ::
      tokensFrom (start + byteLength (c :: rest.take (rule c rest).2))
        (rest.drop (rule c rest).2) := by
  rw [tokensFrom]

/-- The characters of tokens. -/
def charsOf (tokens : List Token) : List Char :=
  tokens.flatMap (·.text.toList)

theorem charsOf_cons (t : Token) (rest : List Token) :
    charsOf (t :: rest) = t.text.toList ++ charsOf rest :=
  List.flatMap_cons

theorem charsOf_tokensFrom (start : Nat) (s : List Char) : charsOf (tokensFrom start s) = s := by
  induction s using tokenwise generalizing start with
  | nil => rw [tokensFrom, charsOf, List.flatMap_nil]
  | cons c rest ih =>
    rw [tokensFrom_cons, charsOf_cons, ih, String.toList_ofList, List.cons_append,
      List.take_append_drop]

theorem toList_textOf (tokens : List Token) : (textOf tokens).toList = charsOf tokens := by
  rw [textOf, String.toList_join, List.flatMap_map, charsOf]

/-- The tokens of a text cover it without gaps. -/
theorem textOf_tokenize (s : String) : textOf (tokenize s) = s := by
  rw [← String.toList_inj, toList_textOf, tokenize, charsOf_tokensFrom]

/-! ## Continuations -/

variable {start : Nat} {s : List Char} {tokens : List Token}

theorem isIdentifierStart_of_isIdentifier {text : List Char} (h : isIdentifier text = true) :
    ∃ c rest, text = c :: rest ∧ isIdentifierStart c = true ∧
      ∀ d ∈ rest, isIdentifierRest d = true := by
  cases text with
  | nil => cases h
  | cons c rest =>
    rw [isIdentifier, Bool.and_eq_true, List.all_eq_true] at h
    exact ⟨c, rest, rfl, h.1, h.2⟩

theorem count_quote_of_isIdentifier {text : List Char} (h : isIdentifier text = true) :
    text.count '"' = 0 := by
  obtain ⟨c, rest, rfl, hstart, hrest⟩ := isIdentifierStart_of_isIdentifier h
  have hquote : isIdentifierRest '"' ≠ true := by decide
  rw [List.count_eq_zero]
  intro hmem
  rcases List.mem_cons.mp hmem with heq | hmem
  · exact hquote (heq ▸ isIdentifierRest_of_isIdentifierStart hstart)
  · exact hquote (hrest _ hmem)

theorem isIdentifier_of_rule {c : Char} {rest : List Char} (h : (rule c rest).1 = .identifier) :
    isIdentifier (c :: rest.take (rule c rest).2) = true := by
  have hstart := rule_fst_eq_identifier_iff.mp h
  rw [rule_of_isIdentifierStart hstart, isIdentifier, hstart, Bool.true_and, runLength,
    ← List.prefix_iff_eq_take.mp (List.takeWhile_prefix _)]
  exact List.all_takeWhile

/-- A text and its respelling open alike. -/
theorem opening_respelled (h : List.Forall₂ Respelled (tokensFrom start s) tokens) :
    opening s = opening (charsOf tokens) := by
  cases s with
  | nil =>
    rw [tokensFrom, List.forall₂_nil_left_iff] at h
    rw [h, charsOf, List.flatMap_nil]
  | cons c rest =>
    rw [tokensFrom_cons, List.forall₂_cons_left_iff] at h
    obtain ⟨u, others, hu, -, rfl⟩ := h
    rw [charsOf_cons]
    rcases hu.text with htext | ⟨hkind, hidentifier⟩
    · rw [htext, String.toList_ofList]
      rfl
    · obtain ⟨d, more, hchars, hstart, -⟩ := isIdentifierStart_of_isIdentifier hidentifier
      rw [hchars, List.cons_append, opening_of_isIdentifierStart hstart,
        opening_of_isIdentifierStart (rule_fst_eq_identifier_iff.mp hkind)]

/-- A text and its respelling have the same quotes. -/
theorem count_quote_respelled (h : List.Forall₂ Respelled (tokensFrom start s) tokens) :
    s.count '"' = (charsOf tokens).count '"' := by
  induction s using tokenwise generalizing start tokens with
  | nil =>
    rw [tokensFrom, List.forall₂_nil_left_iff] at h
    rw [h, charsOf, List.flatMap_nil]
  | cons c rest ih =>
    rw [tokensFrom_cons, List.forall₂_cons_left_iff] at h
    obtain ⟨u, others, hu, hothers, rfl⟩ := h
    have hsplit : (c :: rest).count '"' = (c :: rest.take (rule c rest).2).count '"' +
        (rest.drop (rule c rest).2).count '"' := by
      rw [← List.count_append, List.cons_append, List.take_append_drop]
    rw [hsplit, charsOf_cons, List.count_append, ih hothers]
    congr 1
    rcases hu.text with htext | ⟨hkind, hnew⟩
    · rw [htext, String.toList_ofList]
    · rw [count_quote_of_isIdentifier hnew,
        count_quote_of_isIdentifier (isIdentifier_of_rule hkind)]

/-- A text and its respelling are alike for the rules. -/
theorem alike_respelled (h : List.Forall₂ Respelled (tokensFrom start s) tokens) :
    Alike s (charsOf tokens) where
  opening := opening_respelled h
  quotes := count_quote_respelled h
  behindPoint hpoint := by
    obtain ⟨rest, rfl⟩ := List.head?_eq_some_iff.mp hpoint
    have hrule : rule '.' rest = (.unknown, 0) := rfl
    rw [tokensFrom_cons, hrule, List.forall₂_cons_left_iff] at h
    obtain ⟨u, others, hu, hothers, rfl⟩ := h
    have htext : u.text.toList = ['.'] := by
      rcases hu.text with htext | ⟨hkind, -⟩
      · rw [htext, String.toList_ofList]
        rfl
      · cases hkind
    rw [charsOf_cons, htext]
    exact opening_respelled hothers

/-! ## Tokens of respelled texts -/

/-- What begins as an identifier does is one. -/
theorem any_head?_of_kind_ne_identifier
    (h : ∀ t ∈ (tokensFrom start s).head?, t.kind ≠ .identifier) :
    s.head?.any isIdentifierStart = false := by
  cases s with
  | nil => rfl
  | cons c rest =>
    rw [tokensFrom_cons] at h
    have hkind : (rule c rest).1 ≠ .identifier := h _ rfl
    rw [ne_eq, rule_fst_eq_identifier_iff, Bool.not_eq_true] at hkind
    exact hkind

/-- Before an alike continuation, a token is taken in its new spelling. -/
theorem exists_rule_of_respelled {c : Char} {chars tail behind : List Char} {t u : Token}
    (hrule : rule c (chars ++ tail) = (t.kind, chars.length))
    (htext : t.text.toList = c :: chars) (hu : Respelled t u) (h : Alike tail behind)
    (hnumber : t.kind = .number → tail.head?.any isIdentifierStart = false) :
    ∃ d more, u.text.toList = d :: more ∧ rule d (more ++ behind) = (u.kind, more.length) := by
  rcases hu.text with hsame | ⟨hkind, hidentifier⟩
  · rw [hsame, htext, hu.kind]
    exact ⟨c, chars, rfl, rule_append_eq h hnumber hrule⟩
  · obtain ⟨d, more, hchars, hstart, hmore⟩ := isIdentifierStart_of_isIdentifier hidentifier
    have hold : isIdentifierStart c = true :=
      rule_fst_eq_identifier_iff.mp ((congrArg Prod.fst hrule).trans hkind)
    rw [rule_of_isIdentifierStart hold, Prod.mk.injEq, runLength_append_eq_length_iff] at hrule
    have hbehind : behind.head?.any isIdentifierRest = false := by
      rw [← hrule.2.2]
      exact (any_head?_of_opening_eq
        (fun _ hd ↦ isIdentifierRest_of_isIdentifierStart hd) h.opening).symm
    refine ⟨d, more, hchars, ?_⟩
    rw [rule_of_isIdentifierStart hstart, hu.kind, hkind,
      runLength_append_eq_length_iff.mpr ⟨hmore, hbehind⟩]

/-- A respelled text has the respelled tokens. -/
theorem tokensFrom_charsOf (h : List.Forall₂ Respelled (tokensFrom start s) tokens)
    (hapart : NumbersApart (tokensFrom start s)) (place : Nat) :
    (tokensFrom place (charsOf tokens)).map unplaced = tokens.map unplaced := by
  induction s using tokenwise generalizing start tokens place with
  | nil =>
    rw [tokensFrom, List.forall₂_nil_left_iff] at h
    rw [h, charsOf, List.flatMap_nil, tokensFrom]
  | cons c rest ih =>
    have hlength : (rest.take (rule c rest).2).length = (rule c rest).2 :=
      List.length_take_of_le (rule_snd_le c rest)
    have hrule : rule c (rest.take (rule c rest).2 ++ rest.drop (rule c rest).2) =
        ((rule c rest).1, (rest.take (rule c rest).2).length) := by
      rw [List.take_append_drop, hlength]
    rw [tokensFrom_cons] at h hapart
    rw [List.forall₂_cons_left_iff] at h
    obtain ⟨u, others, hu, hothers, rfl⟩ := h
    obtain ⟨hnumber, hapart⟩ := List.isChain_cons.mp hapart
    obtain ⟨d, chars, htext, hspelled⟩ := exists_rule_of_respelled hrule String.toList_ofList hu
      (alike_respelled hothers) fun hkind ↦
        any_head?_of_kind_ne_identifier fun t ht ↦ hnumber t ht hkind
    rw [charsOf_cons, htext, List.cons_append, tokensFrom_cons, hspelled, List.drop_left,
      List.take_left, List.map_cons, List.map_cons, ih hothers hapart, ← htext,
      String.ofList_toList]
    rfl

/-- Respelling identifiers changes neither the number nor the kinds of the tokens of a text. -/
theorem tokenize_textOf {formula : String} (h : List.Forall₂ Respelled (tokenize formula) tokens)
    (hapart : NumbersApart (tokenize formula)) :
    (tokenize (textOf tokens)).map unplaced = tokens.map unplaced := by
  rw [tokenize, toList_textOf]
  exact tokensFrom_charsOf h hapart 0

end SheetPackages.Formula
