import SheetPackages.Proofs.Formula.Inversion
import SheetPackages.Proofs.Formula.Lexing

/-!
# Names behind numbers

A name directly behind a number is the one place where a new name can change the tokens of a text:
the number may take its beginning as an exponent. Where the numbers end as before, a renamed text
has the renamed tokens; and they do so already if every renamed name that stands directly behind a
number is the beginning of a token.
-/

namespace SheetPackages.Formula

variable {m : RenameMap} {start : Nat} {s t : List Char} {tokens : List Token}

/-! ## Exponents behind names that are kept -/

/-- What follows a sign, or the whole text if none comes first. -/
def unsigned (s : List Char) : List Char :=
  s.drop (signLength s)

theorem exponentLength_cons_eq_zero_iff {c : Char} {rest : List Char} :
    exponentLength (c :: rest) = 0 ↔
      (c = 'e' ∨ c = 'E' → (unsigned rest).head?.any Decimal.isDigit = false) := by
  have hdigits : countDigits (unsigned rest) = 0 ↔
      (unsigned rest).head?.any Decimal.isDigit = false := by
    rw [countDigits, ← runLength, runLength_eq_zero_iff]
  rw [exponentLength, ← hdigits, unsigned]
  split
  · next hc =>
    simp only [hc, true_imp_iff]
    split
    · next hzero => simp [hzero]
    · next hzero => simp [hzero]
  · next hc => simp [hc]

theorem unsigned_of_sign {c : Char} (hc : c = '+' ∨ c = '-') (rest : List Char) :
    unsigned (c :: rest) = rest := by
  rw [unsigned, signLength, if_pos hc]
  rfl

theorem unsigned_of_not_sign (h : ∀ c ∈ s.head?, ¬(c = '+' ∨ c = '-')) : unsigned s = s := by
  cases s with
  | nil => rfl
  | cons c rest =>
    rw [unsigned, signLength, if_neg (h c rfl)]
    rfl

/-- A digit follows a sign at the beginning of a text just when one does in its respelling. -/
theorem any_head?_unsigned_respelled
    (h : List.Forall₂ Token.Respelled (tokensFrom start s) tokens) :
    (unsigned s).head?.any Decimal.isDigit =
      (unsigned (charsOf tokens)).head?.any Decimal.isDigit := by
  have hdigit {s t : List Char} (hopening : opening s = opening t) :
      s.head?.any Decimal.isDigit = t.head?.any Decimal.isDigit :=
    any_head?_of_opening_eq (fun _ hc ↦ isDigit_of_isIdentifierStart hc) hopening
  by_cases hsign : ∃ c ∈ s.head?, c = '+' ∨ c = '-'
  · obtain ⟨c, hhead, hc⟩ := hsign
    obtain ⟨rest, rfl⟩ := List.head?_eq_some_iff.mp hhead
    rw [tokensFrom_cons, List.forall₂_cons_left_iff] at h
    obtain ⟨u, others, hu, hothers, rfl⟩ := h
    have hkind : (rule c rest).1 ≠ .identifier := by
      rw [ne_eq, rule_fst_eq_identifier_iff]
      rcases hc with rfl | rfl <;> decide
    have htext : u.text.toList = c :: rest.take (rule c rest).2 := by
      rcases hu.text with htext | ⟨hidentifier, -⟩
      · rw [htext, String.toList_ofList]
      · exact absurd hidentifier hkind
    rw [charsOf_cons, htext, List.cons_append, unsigned_of_sign hc, unsigned_of_sign hc]
    apply hdigit
    nth_rewrite 1 [← List.take_append_drop (rule c rest).2 rest]
    cases rest.take (rule c rest).2 with
    | nil => exact opening_respelled hothers
    | cons d more => rfl
  · have hnone : ∀ c ∈ s.head?, ¬(c = '+' ∨ c = '-') := fun c hhead hc ↦ hsign ⟨c, hhead, hc⟩
    have hopening := opening_respelled h
    rw [unsigned_of_not_sign hnone, unsigned_of_not_sign, hdigit hopening]
    intro c hhead hc
    refine hnone c (head?_of_opening_eq hopening.symm hhead ?_) hc
    rcases hc with rfl | rfl <;> decide

/-- Behind a name that is kept, an exponent is not made by what follows it. -/
theorem exponentLength_respelled {text : List Char} (hidentifier : isIdentifier text = true)
    (h : List.Forall₂ Token.Respelled (tokensFrom start s) tokens)
    (hzero : exponentLength (text ++ s) = 0) : exponentLength (text ++ charsOf tokens) = 0 := by
  obtain ⟨c, rest, rfl, -, hrest⟩ := isIdentifierStart_of_isIdentifier hidentifier
  rw [List.cons_append, exponentLength_cons_eq_zero_iff] at hzero ⊢
  intro hc
  rw [← hzero hc]
  cases rest with
  | nil => exact (any_head?_unsigned_respelled h).symm
  | cons d more =>
    have hd : ¬(d = '+' ∨ d = '-') := by
      rintro (rfl | rfl) <;> exact absurd (hrest _ List.mem_cons_self) (by decide)
    rw [unsigned_of_not_sign (by simpa using hd), unsigned_of_not_sign (by simpa using hd)]
    rfl

/-! ## Numbers in a renamed text -/

namespace Site

/-- The token of a site with its new text. -/
def tokenUnder (m : RenameMap) (s : Site) : Token :=
  s.token.withText (s.textUnder m)

end Site

variable {sites : List Site} {p : Site}

theorem map_text_tokenUnder (m : RenameMap) (sites : List Site) :
    (sites.map (Site.tokenUnder m)).map Token.text = sites.map (Site.textUnder m) := by
  rw [List.map_map]
  rfl

/-- The new tokens of sites are respellings of the old ones. -/
theorem respelled_tokenUnder (hvalid : ∀ new ∈ m.values, isIdentifier new.toList = true)
    (sites : List Site) :
    List.Forall₂ Token.Respelled (sites.map Site.token) (sites.map (Site.tokenUnder m)) := by
  refine respelled_of_sites hvalid ?_ (map_text_tokenUnder m sites)
  rw [List.map_map, List.map_map]
  rfl

/-- The characters at some sites once identifiers have been renamed. -/
def charsUnder (m : RenameMap) (sites : List Site) : List Char :=
  charsOf (sites.map (Site.tokenUnder m))

theorem charsUnder_cons (m : RenameMap) (p : Site) (rest : List Site) :
    charsUnder m (p :: rest) = (p.textUnder m).toList ++ charsUnder m rest := by
  rw [charsUnder, List.map_cons, charsOf_cons]
  rfl

/-- A number ends where its text ends. -/
def StopsBefore (m : RenameMap) (p : Site) (behind : List Site) : Prop :=
  p.token.kind = .number →
    numberLength (p.token.text.toList ++ charsUnder m behind) = p.token.text.toList.length

theorem isDigit_of_rule {c : Char} {rest : List Char} (h : (rule c rest).1 = .number) :
    Decimal.isDigit c = true := by
  have hmatches := (firstLongest_rule c rest).belongs
  rw [h] at hmatches
  obtain ⟨d, more, heq, hd⟩ := hmatches.exists_opens
  obtain ⟨rfl, -⟩ := List.cons.inj heq
  exact hd

theorem numberLength_of_rule {c : Char} {rest : List Char} (h : (rule c rest).1 = .number) :
    numberLength (c :: rest) = (c :: rest.take (rule c rest).2).length := by
  have hpos := numberLength_pos (isDigit_of_rule h) rest
  rw [List.length_cons, List.length_take_of_le (rule_snd_le c rest),
    rule_of_isDigit (isDigit_of_rule h)]
  omega

/-- The first of some sites that have the tokens of a text, and the text behind it. -/
theorem exists_of_map_token_eq (h : (p :: sites).map Site.token = tokensFrom start s) :
    ∃ c rest, s = c :: rest ∧ p.token.kind = (rule c rest).1 ∧
      p.token.text.toList = c :: rest.take (rule c rest).2 ∧
      sites.map Site.token = tokensFrom (start + byteLength p.token.text.toList)
        (rest.drop (rule c rest).2) := by
  cases s with
  | nil =>
    rw [tokensFrom] at h
    cases h
  | cons c rest =>
    rw [tokensFrom_cons, List.map_cons, List.cons.injEq] at h
    refine ⟨c, rest, rfl, by rw [h.1], by rw [h.1, String.toList_ofList], ?_⟩
    rw [h.1, String.toList_ofList]
    exact h.2

/-- A number ends as before unless a renamed name follows. -/
theorem stopsBefore_of_head (hvalid : ∀ new ∈ m.values, isIdentifier new.toList = true)
    (hsites : (p :: sites).map Site.token = tokensFrom start s)
    (hrenamed : ∀ next ∈ sites.head?, next.Renamed m → StopsBefore m p sites) :
    StopsBefore m p sites := by
  intro hnumber
  obtain ⟨c, rest, rfl, hkind, htext, hbehind⟩ := exists_of_map_token_eq hsites
  have hends : numberLength (p.token.text.toList ++ rest.drop (rule c rest).2) =
      p.token.text.toList.length := by
    rw [htext, List.cons_append, List.take_append_drop]
    exact numberLength_of_rule (hkind.symm.trans hnumber)
  have hrespelled := respelled_tokenUnder hvalid sites
  rw [hbehind] at hrespelled
  have halike := alike_respelled hrespelled
  by_cases hstart : (rest.drop (rule c rest).2).head?.any isIdentifierStart = false
  · exact numberLength_append_eq halike (fun _ ↦ halike.exponentLength hstart) hends
  · cases sites with
    | nil =>
      have hnone : ∀ t ∈ (tokensFrom (start + byteLength p.token.text.toList)
          (rest.drop (rule c rest).2)).head?, t.kind ≠ .identifier := by
        rw [← hbehind]
        exact nofun
      exact absurd (any_head?_of_kind_ne_identifier hnone) hstart
    | cons next more =>
      by_cases hnext : next.Renamed m
      · exact hrenamed next rfl hnext hnumber
      · obtain ⟨d, others, hdrop, hnextKind, hnextText, hmore⟩ := exists_of_map_token_eq hbehind
        have hidentifier : (rule d others).1 = .identifier := by
          rw [rule_fst_eq_identifier_iff]
          simpa [hdrop] using hstart
        have hmoreRespelled := respelled_tokenUnder hvalid more
        rw [hmore] at hmoreRespelled
        refine numberLength_append_eq halike (fun hzero ↦ ?_) hends
        rw [charsUnder_cons, Site.textUnder_of_not_renamed hnext, hnextText]
        refine exponentLength_respelled (isIdentifier_of_rule hidentifier) hmoreRespelled ?_
        rwa [hdrop, ← List.take_append_drop (rule d others).2 others, ← List.cons_append] at hzero

/-! ## The tokens of a renamed text -/

/-- Every number ends where its text ends. -/
def Stops (m : RenameMap) : List Site → Prop
  | [] => True
  | p :: behind => StopsBefore m p behind ∧ Stops m behind

/-- The first token of a renamed text is the one with the new text of its site. -/
theorem tokensFrom_charsUnder_cons (hvalid : ∀ new ∈ m.values, isIdentifier new.toList = true)
    (hsites : (p :: sites).map Site.token = tokensFrom start s) (hstops : StopsBefore m p sites)
    (place : Nat) : tokensFrom place (charsUnder m (p :: sites)) =
      ⟨p.token.kind, p.textUnder m, place, place + byteLength (p.textUnder m).toList⟩ ::
        tokensFrom (place + byteLength (p.textUnder m).toList) (charsUnder m sites) := by
  obtain ⟨c, rest, rfl, hkind, htext, hbehind⟩ := exists_of_map_token_eq hsites
  have hspelled : ∃ d more, (p.textUnder m).toList = d :: more ∧
      rule d (more ++ charsUnder m sites) = (p.token.kind, more.length) := by
    by_cases hnumber : p.token.kind = .number
    · have hsame : p.textUnder m = p.token.text :=
        Site.textUnder_of_not_identifier (by simp [hnumber])
      have hdigit := isDigit_of_rule (hkind.symm.trans hnumber)
      have hlength := hstops hnumber
      rw [htext, List.cons_append, List.length_cons] at hlength
      refine ⟨c, _, hsame ▸ htext, ?_⟩
      rw [rule_of_isDigit hdigit, hlength, hnumber, Nat.add_sub_cancel]
    · have hrespelled := respelled_tokenUnder hvalid (p :: sites)
      rw [List.map_cons, List.map_cons, List.forall₂_cons, hbehind] at hrespelled
      have hrule : rule c (rest.take (rule c rest).2 ++ rest.drop (rule c rest).2) =
          (p.token.kind, (rest.take (rule c rest).2).length) := by
        rw [List.take_append_drop, List.length_take_of_le (rule_snd_le c rest), hkind]
      exact exists_rule_of_respelled hrule htext hrespelled.1 (alike_respelled hrespelled.2)
        fun hkind' ↦ absurd hkind' hnumber
  obtain ⟨d, more, hchars, hrule⟩ := hspelled
  rw [charsUnder_cons, hchars, List.cons_append, tokensFrom_cons, hrule, List.take_left,
    List.drop_left, ← hchars, String.ofList_toList]

/-- Where every number ends as before, a renamed text has the renamed tokens. -/
theorem tokensFrom_charsUnder (hvalid : ∀ new ∈ m.values, isIdentifier new.toList = true)
    (hsites : sites.map Site.token = tokensFrom start s) (hstops : Stops m sites) (place : Nat) :
    (tokensFrom place (charsUnder m sites)).map Token.unplaced =
      sites.map fun site ↦ (site.tokenUnder m).unplaced := by
  induction sites generalizing start s place with
  | nil =>
    rw [charsUnder, List.map_nil, charsOf, List.flatMap_nil, tokensFrom]
    rfl
  | cons p rest ih =>
    obtain ⟨c, more, rfl, -, -, hbehind⟩ := exists_of_map_token_eq hsites
    rw [tokensFrom_charsUnder_cons hvalid hsites hstops.1, List.map_cons, List.map_cons,
      ih hbehind hstops.2]
    rfl

/-! ## Where numbers end -/

/-- The numbers directly before renamed names decide whether the numbers end as before. -/
theorem stops_of_renamed (hvalid : ∀ new ∈ m.values, isIdentifier new.toList = true)
    (hsites : sites.map Site.token = tokensFrom start s)
    (h : ∀ p next behind, p :: next :: behind <:+ sites → next.Renamed m →
      StopsBefore m p (next :: behind)) : Stops m sites := by
  induction sites generalizing start s with
  | nil => trivial
  | cons p rest ih =>
    obtain ⟨c, more, rfl, -, -, hbehind⟩ := exists_of_map_token_eq hsites
    refine ⟨stopsBefore_of_head hvalid hsites fun next hnext hrenamed ↦ ?_,
      ih hbehind fun q next behind hsuffix ↦ h q next behind ?_⟩
    · obtain ⟨behind, rfl⟩ := List.head?_eq_some_iff.mp hnext
      exact h p next behind List.suffix_rfl hrenamed
    · exact hsuffix.trans (List.suffix_cons p rest)

theorem Stops.of_suffix {behind : List Site} (h : Stops m sites) (hsuffix : p :: behind <:+ sites) :
    StopsBefore m p behind := by
  obtain ⟨before, rfl⟩ := hsuffix
  induction before with
  | nil => exact h.1
  | cons first rest ih => exact ih h.2

theorem le_start_of_mem_tokensFrom {place : Nat} {u : Token} (h : u ∈ tokensFrom place s) :
    place ≤ u.start := by
  induction s using tokenwise generalizing place with
  | nil =>
    rw [tokensFrom] at h
    cases h
  | cons c rest ih =>
    rw [tokensFrom_cons] at h
    rcases List.mem_cons.mp h with rfl | h
    · exact Nat.le_refl place
    · exact Nat.le_of_add_right_le (ih h)

/-- A number behind whose text a token begins takes no more than its text. -/
theorem numberLength_of_start {text behind : List Char} (h : Matches .number text) {place : Nat}
    {u : Token} (hu : u ∈ tokensFrom place (text ++ behind))
    (hstart : u.start = place + byteLength text) :
    numberLength (text ++ behind) = text.length := by
  have hle := length_le_numberLength h (List.prefix_append text behind)
  obtain ⟨c, more, rfl, hdigit⟩ := h.exists_opens
  have hpos := byteLength_pos c more
  have htaken : c :: (more ++ behind).take (rule c (more ++ behind)).2 =
      c :: more ++ behind.take (numberLength (c :: more ++ behind) - (c :: more).length) := by
    rw [rule_of_isDigit hdigit, ← List.take_succ_cons,
      Nat.sub_add_cancel (numberLength_pos hdigit (more ++ behind)), ← List.cons_append,
      List.take_append, List.take_of_length_le hle]
  rw [List.cons_append, tokensFrom_cons, htaken, byteLength_append] at hu
  rcases List.mem_cons.mp hu with rfl | hu
  · exact absurd hstart (by simp only; omega)
  · have hbound := le_start_of_mem_tokensFrom hu
    have hnone : behind.take (numberLength (c :: more ++ behind) - (c :: more).length) = [] :=
      eq_nil_of_byteLength_eq_zero (by omega)
    have hwithin := numberLength_le (c :: more ++ behind)
    rw [List.length_append] at hwithin
    have hlength := congrArg List.length hnone
    rw [List.length_take_of_le (by omega), List.length_nil] at hlength
    omega

theorem Token.Respelled.toList_ne_nil {t u : Token} (h : Token.Respelled t u)
    (hne : t.text.toList ≠ []) : u.text.toList ≠ [] := by
  rcases h.text with hsame | ⟨-, hidentifier⟩
  · rwa [hsame]
  · obtain ⟨c, rest, hchars, -, -⟩ := isIdentifierStart_of_isIdentifier hidentifier
    rw [hchars]
    exact List.cons_ne_nil c rest

/-- If every renamed name is the beginning of a token, every number ends as before. -/
theorem stops_of_starts (hvalid : ∀ new ∈ m.values, isIdentifier new.toList = true)
    (hsites : sites.map Site.token = tokensFrom start s) (place : Nat)
    (h : ∀ before next behind, sites = before ++ next :: behind → next.Renamed m →
      ∃ u ∈ tokensFrom place (charsUnder m sites),
        u.start = place + byteLength (charsUnder m before)) : Stops m sites := by
  induction sites generalizing start s place with
  | nil => trivial
  | cons p rest ih =>
    obtain ⟨c, more, rfl, hkind, htext, hbehind⟩ := exists_of_map_token_eq hsites
    have hne : p.token.text.toList ≠ [] := by
      rw [htext]
      exact List.cons_ne_nil _ _
    have hstops : StopsBefore m p rest := by
      refine stopsBefore_of_head hvalid hsites fun next hnext hrenamed hnumber ↦ ?_
      obtain ⟨behind, rfl⟩ := List.head?_eq_some_iff.mp hnext
      obtain ⟨u, hu, hstart⟩ := h [p] next behind rfl hrenamed
      have hmatches : Matches .number p.token.text.toList := by
        rw [htext, ← hnumber, hkind]
        exact (firstLongest_rule c more).belongs
      have hsame : p.textUnder m = p.token.text :=
        Site.textUnder_of_not_identifier (by simp [hnumber])
      rw [charsUnder_cons, hsame] at hu hstart
      rw [charsUnder, List.map_nil, charsOf, List.flatMap_nil, List.append_nil] at hstart
      exact numberLength_of_start hmatches hu hstart
    have hpos : 0 < byteLength (p.textUnder m).toList := by
      have hrespelled := respelled_tokenUnder hvalid (p :: rest)
      rw [List.map_cons, List.map_cons, List.forall₂_cons] at hrespelled
      exact Nat.pos_of_ne_zero fun hzero ↦
        hrespelled.1.toList_ne_nil hne (eq_nil_of_byteLength_eq_zero hzero)
    refine ⟨hstops, ih hbehind (place + byteLength (p.textUnder m).toList) ?_⟩
    intro before next behind hsplit hrenamed
    obtain ⟨u, hu, hstart⟩ := h (p :: before) next behind (by rw [hsplit]; rfl) hrenamed
    rw [charsUnder_cons, byteLength_append] at hstart
    rw [tokensFrom_charsUnder_cons hvalid hsites hstops] at hu
    rcases List.mem_cons.mp hu with rfl | hu
    · exact absurd hstart (by simp only; omega)
    · exact ⟨u, hu, by omega⟩

end SheetPackages.Formula
