import SheetPackages.Proofs.Version.Clauses
import SheetPackages.Proofs.Version.Grammar

/-!
# Written comparators

What a text is read as is written in one way, whatever the text looked like: an operator without
blanks behind it, the numbers that are compared with, and a `.*` only where numbers have been left
open. Everything that is read is settled, which means that nothing is lost by writing it like this,
and so a range is read back from its text.
-/

namespace SheetPackages.Version

open Text (joined pieces trim trimRight)

/-! ## Partial versions -/

namespace Partial

variable {p : Partial} {s : List Char}

/-- The third number is given only behind the second. -/
def Gapless (p : Partial) : Prop :=
  p.minor = none → p.patch = none

/-- The numbers that are given. -/
def numbers (p : Partial) : List UInt64 :=
  p.major :: (p.minor.toList ++ p.patch.toList)

def coreChars (p : Partial) : List Char :=
  joined '.' (p.numbers.map fun n ↦ Decimal.digits n.toNat)

theorem chars_eq (p : Partial) : p.chars = p.coreChars ++ labelChars '-' p.prerelease := by
  obtain ⟨major, minor, patch, prerelease⟩ := p
  cases minor <;> cases patch <;> simp [chars, coreChars, numbers, numberChars, joined]

theorem mem_coreChars {c : Char} (h : c ∈ p.coreChars) : c = '.' ∨ Decimal.isDigit c = true := by
  refine (Text.mem_of_mem_joined h).imp_right fun ⟨number, hnumber, hc⟩ ↦ ?_
  obtain ⟨n, _, rfl⟩ := List.mem_map.mp hnumber
  exact Decimal.isDigit_of_mem_digits hc

theorem not_mem_coreChars {c : Char} (hdot : c ≠ '.') (hdigit : Decimal.isDigit c = false) :
    c ∉ p.coreChars := fun h ↦
  (mem_coreChars h).elim hdot fun hc ↦ Bool.false_ne_true (hdigit.symm.trans hc)

theorem isVersionChar_of_mem {c : Char} (h : c ∈ p.chars) : isVersionChar c = true := by
  rw [chars_eq, List.mem_append] at h
  rcases h with h | h
  · exact isVersionChar_of_core (mem_coreChars h)
  · exact isVersionChar_of_label rfl h

/-- A written partial version begins with a digit. -/
theorem exists_chars (p : Partial) :
    ∃ c rest, p.chars = c :: rest ∧ Decimal.isDigit c = true := by
  cases hmajor : Decimal.digits p.major.toNat with
  | nil => exact absurd hmajor (Decimal.digits_ne_nil _)
  | cons c rest =>
    refine ⟨c, _, by rw [chars, hmajor]; rfl, ?_⟩
    exact Decimal.isDigit_of_mem_digits (hmajor ▸ List.mem_cons_self)

theorem gapless_of_ofChars (h : ofChars s = .ok p) : p.Gapless := by
  obtain ⟨layout, _, h⟩ := exists_of_bind_eq_ok h
  obtain ⟨⟨major, minor, patch⟩, hcore, h⟩ := exists_of_bind_eq_ok h
  cases h
  obtain ⟨numbers, _, _, _, rfl, rfl⟩ := readCore_eq_ok_iff.mp hcore
  intro hminor
  rw [List.getElem?_eq_none_iff] at hminor ⊢
  omega

theorem readCore_coreChars (input : List Char) (h : p.Gapless) :
    readCore input p.coreChars = .ok (p.major, p.minor, p.patch) := by
  have hpieces : pieces '.' p.coreChars = p.numbers.map fun n ↦ Decimal.digits n.toNat := by
    refine Text.pieces_joined_of_not_mem (List.cons_ne_nil _ _) fun number hnumber hdot ↦ ?_
    obtain ⟨n, _, rfl⟩ := List.mem_map.mp hnumber
    exact Bool.false_ne_true (Decimal.isDigit_of_mem_digits hdot)
  refine readCore_eq_ok_iff.mpr ⟨p.numbers, ?_, ?_⟩
  · rw [hpieces, List.map_map]
    exact List.map_congr_left fun n _ ↦ Decimal.readWord?_digits n
  · obtain ⟨major, minor, patch, prerelease⟩ := p
    cases minor with
    | none =>
      obtain rfl : patch = none := h rfl
      simp [numbers]
    | some minor => cases patch <;> simp [numbers]

/-! ### Open ends -/

/-- The mark that asks for all versions that begin with the given numbers. -/
def openEnd (wild : Bool) : List Char :=
  if wild then ['.', '*'] else []

theorem not_mem_chars_star (p : Partial) : '*' ∉ p.chars :=
  fun h ↦ Bool.false_ne_true (isVersionChar_of_mem h)

theorem endsInWildcard_append (h : '*' ∉ s) (wild : Bool) :
    endsInWildcard (s ++ openEnd wild) = wild := by
  cases wild with
  | false =>
    rw [openEnd, if_neg Bool.false_ne_true, List.append_nil]
    exact endsInWildcard_of_not_mem h
  | true => exact List.isSuffixOf_iff_suffix.mpr (List.suffix_append _ _)

theorem dropWildcard_append (h : '*' ∉ s) (wild : Bool) : dropWildcard (s ++ openEnd wild) = s := by
  cases wild with
  | false =>
    rw [openEnd, if_neg Bool.false_ne_true, List.append_nil]
    exact dropWildcard_of_not_mem h
  | true =>
    have hcut : ['.', '*'].isSuffixOf? (s ++ ['.', '*']) = some s :=
      List.isSuffixOf?_eq_some_iff_append_eq.mpr rfl
    rw [openEnd, if_pos rfl, dropWildcard, hcut, Option.getD_some]

/-- A partial version is read back from its text, with or without an open end. -/
theorem ofChars_append (h : p.Gapless) (wild : Bool) :
    ofChars (p.chars ++ openEnd wild) = .ok p := by
  have hmark : dropMark (p.chars ++ openEnd wild) = p.chars ++ openEnd wild := by
    obtain ⟨c, rest, hchars, hc⟩ := p.exists_chars
    rw [hchars, List.cons_append, dropMark]
    rintro _ heq
    cases heq
    cases hc
  have hlayout : Layout.ofChars p.chars = .ok ⟨p.coreChars, p.prerelease, none⟩ := by
    have hread := Layout.ofChars_append (p.not_mem_coreChars (c := '+') (by decide) rfl)
      (p.not_mem_coreChars (c := '-') (by decide) rfl) p.prerelease none
    rwa [labelChars, List.append_nil, ← chars_eq] at hread
  simp only [ofChars, hmark, dropWildcard_append p.not_mem_chars_star, hlayout,
    readCore_coreChars _ h, bind, Except.bind]
  rfl

theorem zeroFilled_of_closed (h : p.isOpen = false) : p.zeroFilled = p := by
  obtain ⟨major, minor, patch, prerelease⟩ := p
  rw [isOpen, Bool.or_eq_false_iff] at h
  obtain ⟨minor, rfl⟩ := Option.isSome_iff_exists.mp (Option.isNone_eq_false_iff.mp h.1)
  obtain ⟨patch, rfl⟩ := Option.isSome_iff_exists.mp (Option.isNone_eq_false_iff.mp h.2)
  rfl

end Partial

/-! ## Operators -/

namespace Operator

theorem ne_wildcard_of_leading? {s rest : List Char} {op : Operator}
    (h : leading? s = some (op, rest)) : op ≠ .wildcard := by
  obtain ⟨⟨sign, other⟩, hmem, hsign⟩ := List.exists_of_findSome?_eq_some h
  obtain ⟨_, _, heq⟩ := Option.map_eq_some_iff.mp hsign
  cases heq
  simp only [table, List.mem_cons, Prod.mk.injEq, List.not_mem_nil, or_false] at hmem
  rcases hmem with h | h | h | h | h | h | h | h | h | h <;> simp [h.2]

/-- Nothing but an equals sign continues an operator. -/
theorem leading?_append {op : Operator} (hop : op ≠ .wildcard) {rest : List Char}
    (h : '=' ∉ rest.head?) : leading? (op.chars ++ rest) = some (op, rest) := by
  have hne : ['='].isPrefixOf? rest = none := by
    cases rest with
    | nil => rfl
    | cons c more =>
      have hc : ('=' == c) = false := beq_eq_false_iff_ne.mpr fun heq ↦ h (congrArg some heq.symm)
      simp [List.isPrefixOf?, hc]
  cases op with
  | wildcard => exact absurd rfl hop
  | exact | notEqual | greaterEq | lessEq | compatible | caret => rfl
  | greater | less | tilde => simp [leading?, table, chars, List.isPrefixOf?, hne]

theorem isBlank_of_mem_chars {op : Operator} {c : Char} (h : c ∈ op.chars) :
    Text.isBlank c = false := by
  have hall : (op.chars.all fun c ↦ !Text.isBlank c) = true := by cases op <;> decide
  simpa using List.all_eq_true.mp hall c h

theorem trim_chars_append (op : Operator) (s : List Char) :
    trim (op.chars ++ s) = op.chars ++ trimRight s := by
  have hne : op.chars ≠ [] := by cases op <;> exact List.cons_ne_nil _ _
  have hleft : Text.trimLeft (op.chars ++ s) = op.chars ++ s := Text.trimLeft_eq_self fun c hc ↦ by
    rw [List.head?_append_of_ne_nil _ hne] at hc
    exact isBlank_of_mem_chars (List.mem_of_head? hc)
  have hright : trimRight op.chars = op.chars := Text.trimRight_eq_self fun c hc ↦
    isBlank_of_mem_chars (List.mem_of_getLast? hc)
  rw [trim, hleft, Text.trimRight_append hright]

theorem comma_not_mem_chars (op : Operator) : ',' ∉ op.chars := by
  cases op <;> simp [chars]

end Operator

/-! ## Comparators -/

namespace Comparator

/-- What an operator is compared with: bounds have all numbers, a compatible version has a second
one, and no version is compared with where all are accepted. -/
def Fits (p : Partial) : Operator → Prop
  | .exact | .notEqual | .tilde | .caret => True
  | .greater | .greaterEq | .less | .lessEq => p.isOpen = false
  | .compatible => p.minor.isNone = false
  | .wildcard => p = { major := 0 }

/-- A comparator whose text says all that there is to it. -/
structure Settled (c : Comparator) : Prop where
  gapless : c.version.Gapless
  fits : Fits c.version c.op

variable {c : Comparator} {s : List Char}

theorem settled_of_settle {op : Operator} {written : List Char} {p version : Partial}
    (hop : op ≠ .wildcard) (hp : p.Gapless) (h : settle op written p = .ok version) :
    Settled ⟨op, version⟩ := by
  have hfilled : p.zeroFilled.Gapless := nofun
  cases op
  case wildcard => exact absurd rfl hop
  case exact | notEqual =>
    cases h
    refine ⟨?_, trivial⟩
    split
    · exact hp
    · exact hfilled
  case compatible =>
    simp only [settle] at h
    split at h
    · cases h
    · next hminor =>
      split at h
      · cases h
      · cases h
        exact ⟨hp, Bool.eq_false_iff.mpr hminor⟩
  case greater | greaterEq | less | lessEq =>
    simp only [settle] at h
    split at h
    · cases h
    · cases h
      exact ⟨hfilled, rfl⟩
  case tilde | caret =>
    simp only [settle] at h
    split at h
    · cases h
    · cases h
      exact ⟨hp, trivial⟩

/-- The operator of a comparator and what it stands before. -/
def divided (input : List Char) : Operator × List Char :=
  match Operator.leading? input with
  | some (op, rest) => (op, trim rest)
  | none => (.exact, input)

theorem divided_ne_wildcard (input : List Char) : (divided input).1 ≠ .wildcard := by
  rw [divided]
  split
  · next h => exact Operator.ne_wildcard_of_leading? h
  · exact nofun

/-- The comparator that is read of what an operator stands before. -/
def behind (input : List Char) (op : Operator) (written : List Char) : Except Flaw Comparator := do
  if written = [] then throw (.specifier (String.ofList input) "missing version")
  let p ← Partial.ofChars written
  match settle op written p with
  | .ok version => return ⟨op, version⟩
  | .error reason => throw (.specifier (String.ofList input) reason)

theorem ofChars_eq (s : List Char) : ofChars s =
    if trim s = ['*'] then .ok ⟨.wildcard, { major := 0 }⟩
    else behind (trim s) (divided (trim s)).1 (divided (trim s)).2 := by
  unfold ofChars divided
  dsimp only
  cases Operator.leading? (trim s) <;> rfl

theorem behind_eq_ok_iff {input written : List Char} {op : Operator} :
    behind input op written = .ok c ↔
      written ≠ [] ∧ op = c.op ∧
        ∃ p, Partial.ofChars written = .ok p ∧ settle op written p = .ok c.version := by
  unfold behind
  simp only [guard_eq_ok_iff, bind_eq_ok_iff]
  refine and_congr_right fun _ ↦ ?_
  constructor
  · rintro ⟨p, hp, h⟩
    split at h
    · next hsettle =>
      cases h
      exact ⟨rfl, p, hp, hsettle⟩
    · cases h
  · rintro ⟨rfl, p, hp, hsettle⟩
    exact ⟨p, hp, by rw [hsettle]; rfl⟩

/-- What is written behind an operator is read for itself. -/
theorem ofChars_append {op : Operator} (hop : op ≠ .wildcard) (h : '=' ∉ (trim s).head?) :
    ofChars (op.chars ++ s) = behind (op.chars ++ trimRight s) op (trim s) := by
  have hstar : op.chars ++ trimRight s ≠ ['*'] := by
    cases op with
    | wildcard => exact absurd rfl hop
    | _ => simp [Operator.chars]
  -- An equals sign is no blank, so it would also begin what is left behind the blanks.
  have hhead : '=' ∉ (trimRight s).head? := fun heq ↦ by
    have hleft : Text.trimLeft (trimRight s) = trimRight s :=
      Text.trimLeft_eq_self fun c hc ↦ by rw [← Option.mem_unique heq hc]; rfl
    rw [Text.trim_eq_trimLeft_trimRight, hleft] at h
    exact h heq
  have hdivided : divided (op.chars ++ trimRight s) = (op, trim s) := by
    rw [divided, Operator.leading?_append hop hhead]
    exact congrArg (op, ·) (Text.trim_trimRight s)
  rw [ofChars_eq, Operator.trim_chars_append, if_neg hstar, hdivided]

/-- Everything that is read is settled. -/
theorem settled_of_ofChars (h : ofChars s = .ok c) : c.Settled := by
  rw [ofChars_eq] at h
  split at h
  · cases h
    exact ⟨fun _ ↦ rfl, rfl⟩
  · obtain ⟨_, hop, p, hp, hsettle⟩ := behind_eq_ok_iff.mp h
    have hsettled := settled_of_settle (divided_ne_wildcard _) (Partial.gapless_of_ofChars hp)
      hsettle
    rwa [hop] at hsettled

/-- Whether a comparator is written with an open end. -/
def isWild (c : Comparator) : Bool :=
  (c.op = .exact ∨ c.op = .notEqual) && c.version.isOpen

/-- What is written behind the operator. -/
def body (c : Comparator) : List Char :=
  c.version.chars ++ Partial.openEnd c.isWild

theorem chars_eq (hop : c.op ≠ .wildcard) : c.chars = c.op.chars ++ c.body := by
  obtain ⟨op, version⟩ := c
  cases op with
  | wildcard => exact absurd rfl hop
  | _ => cases hopen : version.isOpen <;>
      simp [chars, body, isWild, Partial.openEnd, hopen]

theorem exists_body (c : Comparator) :
    ∃ a rest, c.body = a :: rest ∧ Decimal.isDigit a = true := by
  obtain ⟨a, rest, hchars, ha⟩ := c.version.exists_chars
  exact ⟨a, rest ++ Partial.openEnd c.isWild, by rw [body, hchars, List.cons_append], ha⟩

theorem endsInWildcard_body (c : Comparator) : Partial.endsInWildcard c.body = c.isWild :=
  Partial.endsInWildcard_append c.version.not_mem_chars_star c.isWild

theorem settle_of_settled (h : c.Settled) (hop : c.op ≠ .wildcard) :
    settle c.op c.body c.version = .ok c.version := by
  obtain ⟨op, version⟩ := c
  have hfits := h.fits
  cases op with
  | wildcard => exact absurd rfl hop
  | exact | notEqual =>
    cases hopen : version.isOpen with
    | false => simp [settle, endsInWildcard_body, isWild, hopen,
        Partial.zeroFilled_of_closed hopen, pure, Except.pure]
    | true => simp [settle, endsInWildcard_body, isWild, hopen, pure, Except.pure]
  | tilde | caret =>
    simp [settle, endsInWildcard_body, isWild, pure, Except.pure]
  | greater | greaterEq | less | lessEq =>
    simp [settle, endsInWildcard_body, isWild, Partial.zeroFilled_of_closed hfits,
      pure, Except.pure]
  | compatible =>
    simp only [Fits] at hfits
    simp [settle, endsInWildcard_body, isWild, hfits, pure, Except.pure]

theorem mem_body {a : Char} (h : a ∈ c.body) : a = '*' ∨ isVersionChar a = true := by
  rcases List.mem_append.mp h with h | h
  · exact .inr (Partial.isVersionChar_of_mem h)
  · unfold Partial.openEnd at h
    split at h
    · simp only [List.mem_cons, List.not_mem_nil, or_false] at h
      rcases h with rfl | rfl
      · exact .inr rfl
      · exact .inl rfl
    · cases h

theorem isBlank_of_mem_body {a : Char} (h : a ∈ c.body) : Text.isBlank a = false := by
  rcases mem_body h with rfl | ha
  · rfl
  · exact isBlank_of_isVersionChar ha

theorem isBlank_of_mem_chars {a : Char} (h : a ∈ c.chars) : Text.isBlank a = false := by
  by_cases hop : c.op = .wildcard
  · rw [chars, hop] at h
    exact Operator.isBlank_of_mem_chars h
  · rw [chars_eq hop, List.mem_append] at h
    exact h.elim Operator.isBlank_of_mem_chars isBlank_of_mem_body

theorem comma_not_mem_chars (c : Comparator) : ',' ∉ c.chars := by
  intro h
  by_cases hop : c.op = .wildcard
  · rw [chars, hop] at h
    exact Operator.comma_not_mem_chars _ h
  · rw [chars_eq hop, List.mem_append] at h
    rcases h with h | h
    · exact Operator.comma_not_mem_chars _ h
    · exact (mem_body h).elim nofun nofun

theorem exists_mem_chars (c : Comparator) : ∃ a ∈ c.chars, isOperatorChar a = false := by
  by_cases hop : c.op = .wildcard
  · exact ⟨'*', by rw [chars, hop]; exact List.mem_cons_self, rfl⟩
  · obtain ⟨a, rest, hbody, ha⟩ := c.exists_body
    refine ⟨a, ?_, isOperatorChar_of_isDigit ha⟩
    rw [chars_eq hop, hbody]
    exact List.mem_append_right _ List.mem_cons_self

/-- A settled comparator is read back from its text. -/
theorem ofChars_chars (h : c.Settled) : ofChars c.chars = .ok c := by
  by_cases hop : c.op = .wildcard
  · obtain ⟨op, version⟩ := c
    obtain rfl : op = .wildcard := hop
    obtain rfl : version = { major := 0 } := h.fits
    rfl
  · obtain ⟨a, rest, hbody, ha⟩ := c.exists_body
    have htrim : trim c.body = c.body := Text.trim_of_forall fun _ ↦ isBlank_of_mem_body
    have hhead : '=' ∉ (trim c.body).head? := by
      rw [htrim, hbody]
      rintro ⟨rfl⟩
      cases ha
    rw [chars_eq hop, ofChars_append hop hhead, htrim]
    refine behind_eq_ok_iff.mpr ⟨?_, rfl, c.version, Partial.ofChars_append h.gapless _,
      settle_of_settled h hop⟩
    rw [hbody]
    exact List.cons_ne_nil a rest

end Comparator

/-! ## Ranges -/

namespace Range

open Comparator (Settled)

variable {input : List Char} {comparators : List Comparator}

theorem settled_of_clause {pending : Option (List Char)} {ws : List (List Char)}
    (h : clause input pending ws = .ok comparators) : ∀ c ∈ comparators, c.Settled := by
  induction ws generalizing pending comparators with
  | nil =>
    cases pending with
    | none =>
      cases h
      exact nofun
    | some op => cases h
  | cons word rest ih =>
    rw [clause] at h
    split at h
    · exact ih h
    · obtain ⟨comparator, hcomparator, h⟩ := exists_of_bind_eq_ok h
      obtain ⟨more, hmore, h⟩ := exists_of_bind_eq_ok h
      cases h
      exact List.forall_mem_cons.mpr ⟨Comparator.settled_of_ofChars hcomparator, ih hmore⟩

theorem settled_of_clauses {clausePieces : List (List Char)}
    (h : clauses input clausePieces = .ok comparators) : ∀ c ∈ comparators, c.Settled := by
  induction clausePieces generalizing comparators with
  | nil =>
    cases h
    exact nofun
  | cons piece more ih =>
    obtain ⟨here, rest, hhere, hrest, rfl⟩ := clauses_cons_eq_ok_iff.mp h
    exact List.forall_mem_append.mpr ⟨settled_of_clause hhere, ih hrest⟩

/-- The words of a written comparator are the comparator itself. -/
theorem clause_words_chars (input : List Char) {c : Comparator} (h : c.Settled) :
    clause input none (Text.words c.chars) = .ok [c] := by
  obtain ⟨a, hmem, ha⟩ := c.exists_mem_chars
  have hwords : Text.words c.chars = [c.chars] :=
    Text.words_of_forall (List.ne_nil_of_mem hmem) fun _ ↦ Comparator.isBlank_of_mem_chars
  have hoperator : ¬c.chars.all isOperatorChar = true := fun hall ↦
    Bool.false_ne_true (ha.symm.trans (List.all_eq_true.mp hall a hmem))
  rw [hwords, clause, if_neg hoperator, Option.getD_none, List.nil_append,
    Comparator.ofChars_chars h]
  rfl

theorem clauses_map_chars (input : List Char) (h : ∀ c ∈ comparators, c.Settled) :
    clauses input (comparators.map Comparator.chars) = .ok comparators := by
  induction comparators with
  | nil => rfl
  | cons c rest ih =>
    obtain ⟨hc, hrest⟩ := List.forall_mem_cons.mp h
    exact clauses_cons_eq_ok_iff.mpr ⟨[c], rest, clause_words_chars input hc, ih hrest, rfl⟩

theorem clauses_chars {r : Range} (h : ∀ c ∈ r.comparators, c.Settled) :
    clauses r.chars (pieces ',' r.chars) = .ok r.comparators := by
  obtain ⟨comparators⟩ := r
  cases comparators with
  | nil =>
    have hnone : clause [] none (Text.words []) = .ok [] := by
      rw [Text.words_of_trimLeft_eq_nil rfl]
      rfl
    exact clauses_cons_eq_ok_iff.mpr ⟨[], [], hnone, rfl, rfl⟩
  | cons c rest =>
    have hpieces : pieces ',' (joined ',' ((c :: rest).map Comparator.chars)) =
        (c :: rest).map Comparator.chars := by
      refine Text.pieces_joined_of_not_mem (List.cons_ne_nil _ _) fun item hitem ↦ ?_
      obtain ⟨d, _, rfl⟩ := List.mem_map.mp hitem
      exact d.comma_not_mem_chars
    rw [chars, hpieces]
    exact clauses_map_chars _ h

/-- A range of settled comparators is read back from its text. -/
theorem parse_text_of_settled {r : Range} (h : ∀ c ∈ r.comparators, c.Settled) :
    parse r.text = .ok r := by
  rw [parse, text, String.toList_ofList, ofChars, clauses_chars h]
  rfl

/-- Whatever text a range has been read from, it is read again from the text that is written for
it. -/
theorem parse_text_of_parse {s : String} {r : Range} (h : parse s = .ok r) :
    parse r.text = .ok r := by
  obtain ⟨comparators, hcomparators, hr⟩ := exists_of_bind_eq_ok h
  cases hr
  exact parse_text_of_settled (settled_of_clauses hcomparators)

/-- Labels behind two numbers and behind one, the latter with an open end. -/
def mixed : Range where
  comparators :=
    [⟨.compatible, 1, some 2, none, some ⟨[⟨"rc-1".toList, by decide, by decide⟩], by decide⟩⟩,
      ⟨.notEqual, 3, none, none, some ⟨[⟨"a".toList, by decide, by decide⟩], by decide⟩⟩,
      ⟨.exact, 2, some 0, some 0, none⟩, ⟨.wildcard, 0, none, none, none⟩,
      ⟨.greater, 4, some 5, some 0, none⟩]

theorem parse_text_mixed : parse " ~= v1.02-rc-1+b, !=v3-a.*   =2 ,,* > 4.5" = .ok mixed ∧
    mixed.text = "~=1.2-rc-1,!=3-a.*,==2.0.0,*,>4.5.0" ∧ parse mixed.text = .ok mixed := by
  have h : parse " ~= v1.02-rc-1+b, !=v3-a.*   =2 ,,* > 4.5" = .ok mixed := by decide +kernel
  exact ⟨h, by decide +kernel, parse_text_of_parse h⟩

end Range

end SheetPackages.Version
