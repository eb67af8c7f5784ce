import SheetPackages.Proofs.Results
import SheetPackages.Proofs.Version.Spelling

/-!
# The grammar of versions

A text is read as a version exactly if it is written in the grammar: one to three numbers below
2^64 with dots between them, then a prerelease label behind `-`, then a build label behind `+`, the
labels being optional. A `v` may stand before it, and blanks around it. Both marks may occur inside
a later part, the hyphen in either label, so each part is found at the first mark only.
-/

namespace SheetPackages.Version

open Text (cut? joined pieces trim)

/-! ## Spellings -/

/-- A number below 2^64 as it may be written; leading zeros are allowed. -/
structure IsNumeral (s : List Char) : Prop where
  nonempty : s ≠ []
  digits : ∀ c ∈ s, Decimal.isDigit c = true
  small : Decimal.value s < UInt64.size

/-- The parts of a text in the grammar of versions. -/
structure Spelling where
  numerals : List (List Char)
  prerelease : Option Label
  build : Option Label
  length_pos : 1 ≤ numerals.length
  length_le : numerals.length ≤ 3
  isNumeral : ∀ s ∈ numerals, IsNumeral s

namespace Spelling

def chars (p : Spelling) : List Char :=
  joined '.' p.numerals ++ labelChars '-' p.prerelease ++ labelChars '+' p.build

/-- The text is the spelling, behind a `v` or not, with blanks around it or not. -/
def Spells (p : Spelling) (s : String) : Prop :=
  trim s.toList = p.chars ∨ trim s.toList = 'v' :: p.chars

/-- The value of the numeral at place `k`; zero where there is none. -/
def value (p : Spelling) (k : Nat) : Nat :=
  (p.numerals[k]?.map Decimal.value).getD 0

/-- The version has the numbers and the labels of the spelling. -/
structure Denotes (p : Spelling) (v : Version) : Prop where
  major : v.major.toNat = p.value 0
  minor : v.minor.toNat = p.value 1
  patch : v.patch.toNat = p.value 2
  prerelease : v.prerelease = p.prerelease
  build : v.build = p.build

end Spelling

/-! ## Numbers -/

theorem readWord?_eq_some_iff_isNumeral {s : List Char} {n : UInt64} :
    Decimal.readWord? s = some n ↔ IsNumeral s ∧ Decimal.value s = n.toNat := by
  rw [Decimal.readWord?_eq_some_iff, List.all_eq_true]
  constructor
  · rintro ⟨hne, hdigits, hvalue⟩
    exact ⟨⟨hne, hdigits, hvalue ▸ n.toNat_lt⟩, hvalue⟩
  · rintro ⟨h, hvalue⟩
    exact ⟨h.nonempty, h.digits, hvalue⟩

theorem IsNumeral.exists_readWord? {s : List Char} (h : IsNumeral s) :
    ∃ n, Decimal.readWord? s = some n :=
  ⟨UInt64.ofNat (Decimal.value s),
    readWord?_eq_some_iff_isNumeral.mpr ⟨h, (UInt64.toNat_ofNat_of_lt' h.small).symm⟩⟩

section Numbers

variable {numerals : List (List Char)} {numbers : List UInt64}

theorem length_eq_of_map (h : numerals.map Decimal.readWord? = numbers.map some) :
    numerals.length = numbers.length := by
  simpa only [List.length_map] using congrArg List.length h

theorem isNumeral_of_map_readWord? (h : numerals.map Decimal.readWord? = numbers.map some) :
    ∀ s ∈ numerals, IsNumeral s := by
  intro s hs
  have hmem := List.mem_map_of_mem (f := Decimal.readWord?) hs
  rw [h] at hmem
  obtain ⟨n, _, hn⟩ := List.mem_map.mp hmem
  exact (readWord?_eq_some_iff_isNumeral.mp hn.symm).1

theorem exists_map_readWord? (h : ∀ s ∈ numerals, IsNumeral s) :
    ∃ numbers : List UInt64, numerals.map Decimal.readWord? = numbers.map some := by
  induction numerals with
  | nil => exact ⟨[], rfl⟩
  | cons s rest ih =>
    obtain ⟨hs, hrest⟩ := List.forall_mem_cons.mp h
    obtain ⟨n, hn⟩ := hs.exists_readWord?
    obtain ⟨more, hmore⟩ := ih hrest
    exact ⟨n :: more, by rw [List.map_cons, List.map_cons, hn, hmore]⟩

theorem value_eq_of_map (h : numerals.map Decimal.readWord? = numbers.map some) (k : Nat) :
    (numerals[k]?.map Decimal.value).getD 0 = (numbers[k]?.getD 0).toNat := by
  have hk : numerals[k]?.map Decimal.readWord? = numbers[k]?.map some := by
    rw [← List.getElem?_map, h, List.getElem?_map]
  cases hs : numerals[k]? with
  | none =>
    rw [hs, Option.map_none] at hk
    rw [Option.map_eq_none_iff.mp hk.symm]
    rfl
  | some s =>
    rw [hs, Option.map_some] at hk
    obtain ⟨n, hn, hword⟩ := Option.map_eq_some_iff.mp hk.symm
    rw [hn]
    exact (readWord?_eq_some_iff_isNumeral.mp hword.symm).2

end Numbers

theorem readNumber_eq_ok_iff {s : List Char} {n : UInt64} :
    readNumber s = .ok n ↔ Decimal.readWord? s = some n := by
  unfold readNumber
  cases Decimal.readWord? s <;> simp [pure, Except.pure]

theorem ne_nil_of_readWord? {s : List Char} {n : UInt64} (h : Decimal.readWord? s = some n) :
    s ≠ [] :=
  (readWord?_eq_some_iff_isNumeral.mp h).1.nonempty

/-- A core is read if all its pieces are numbers and there are at most three of them. -/
theorem readCore_eq_ok_iff {input core : List Char} {major : UInt64} {minor patch : Option UInt64} :
    readCore input core = .ok (major, minor, patch) ↔ ∃ numbers : List UInt64,
      (pieces '.' core).map Decimal.readWord? = numbers.map some ∧ numbers.length ≤ 3 ∧
        numbers[0]? = some major ∧ numbers[1]? = minor ∧ numbers[2]? = patch := by
  unfold readCore
  rcases pieces '.' core with _ | ⟨a, _ | ⟨b, _ | ⟨c, _ | ⟨d, more⟩⟩⟩⟩
  case nil =>
    refine iff_of_false (nomatch ·) fun ⟨numbers, hnumbers, _, hmajor, _⟩ ↦ ?_
    rw [List.map_eq_nil_iff.mp hnumbers.symm] at hmajor
    cases hmajor
  case cons.cons.cons.cons =>
    refine iff_of_false (nomatch ·) fun ⟨numbers, hnumbers, hle, _⟩ ↦ ?_
    have hlength := length_eq_of_map hnumbers
    simp only [List.length_cons] at hlength
    omega
  all_goals
    simp only [guard_eq_ok_iff, bind_eq_ok_iff, readNumber_eq_ok_iff, pure, Except.pure,
      Except.ok.injEq, Prod.mk.injEq]
  case cons.nil =>
    constructor
    · rintro ⟨_, l, ha, rfl, rfl, rfl⟩
      exact ⟨[l], by simp [ha]⟩
    · rintro ⟨numbers, hnumbers, -, hmajor, rfl, rfl⟩
      obtain ⟨l, rfl⟩ := List.length_eq_one_iff.mp (length_eq_of_map hnumbers).symm
      simp_all [ne_nil_of_readWord?]
  case cons.cons.nil =>
    constructor
    · rintro ⟨_, l, ha, m, hb, rfl, rfl, rfl⟩
      exact ⟨[l, m], by simp [ha, hb]⟩
    · rintro ⟨numbers, hnumbers, -, hmajor, rfl, rfl⟩
      obtain ⟨l, m, rfl⟩ := List.length_eq_two.mp (length_eq_of_map hnumbers).symm
      simp_all [ne_nil_of_readWord?]
  case cons.cons.cons.nil =>
    constructor
    · rintro ⟨_, l, ha, m, hb, n, hc, rfl, rfl, rfl⟩
      exact ⟨[l, m, n], by simp [ha, hb, hc]⟩
    · rintro ⟨numbers, hnumbers, -, hmajor, rfl, rfl⟩
      obtain ⟨l, m, n, rfl⟩ := List.length_eq_three.mp (length_eq_of_map hnumbers).symm
      simp_all [ne_nil_of_readWord?]

/-! ## Labels -/

theorem map_chars_of_mapM_ofChars? {texts : List (List Char)} {parts : List Identifier}
    (h : texts.mapM Identifier.ofChars? = some parts) : parts.map Identifier.chars = texts := by
  induction texts generalizing parts with
  | nil =>
    cases h
    rfl
  | cons s rest ih =>
    rw [List.mapM_cons] at h
    obtain ⟨i, hi, h⟩ := Option.bind_eq_some_iff.mp h
    obtain ⟨more, hmore, h⟩ := Option.bind_eq_some_iff.mp h
    cases h
    rw [Identifier.ofChars?, Option.dite_none_right_eq_some] at hi
    obtain ⟨_, hi⟩ := hi
    rw [List.map_cons, ih hmore, ← Option.some_inj.mp hi]

theorem Label.ofChars?_eq_some_iff {s : List Char} {l : Label} :
    ofChars? s = some l ↔ l.chars = s := by
  refine ⟨fun h ↦ ?_, fun h ↦ h ▸ ofChars?_chars l⟩
  unfold ofChars? at h
  split at h
  · cases h
  · next parts hparts =>
    rw [Option.dite_none_right_eq_some] at h
    obtain ⟨_, h⟩ := h
    rw [← Option.some_inj.mp h, Label.chars, map_chars_of_mapM_ofChars? hparts,
      Text.joined_pieces]

theorem append_labelChars_of_cut?_eq_none {mark : Char} {s : List Char}
    (h : cut? mark s = none) : s = s ++ labelChars mark none ∧ mark ∉ s :=
  ⟨(List.append_nil s).symm, Text.cut?_eq_none_iff.mp h⟩

theorem append_labelChars_of_cut?_eq_some {mark : Char} {s before behind : List Char} {l : Label}
    (h : cut? mark s = some (before, behind)) (hl : Label.ofChars? behind = some l) :
    s = before ++ labelChars mark (some l) ∧ mark ∉ before := by
  rw [labelChars, Label.ofChars?_eq_some_iff.mp hl]
  exact Text.cut?_eq_some_iff.mp h

/-- The layout of a text whose build label has been split off. -/
def Layout.ofFront (build : Option Label) (front : List Char) : Except Flaw Layout :=
  match cut? '-' front with
  | none => pure ⟨front, none, build⟩
  | some (before, behind) =>
    match Label.ofChars? behind with
    | none => throw (.prerelease (String.ofList behind))
    | some label => pure ⟨before, some label, build⟩

theorem Layout.ofChars_eq (s : List Char) : ofChars s =
    match cut? '+' s with
    | none => ofFront none s
    | some (before, behind) =>
      match Label.ofChars? behind with
      | none => throw (.build (String.ofList behind))
      | some label => ofFront (some label) before := by
  unfold ofChars
  rcases cut? '+' s with _ | ⟨before, behind⟩
  · rfl
  · simp only
    cases Label.ofChars? behind <;> rfl

theorem Layout.eq_of_ofFront {front : List Char} {build : Option Label} {layout : Layout}
    (h : ofFront build front = .ok layout) : layout.build = build ∧
      front = layout.core ++ labelChars '-' layout.prerelease ∧ '-' ∉ layout.core := by
  unfold ofFront at h
  split at h
  · next hcut =>
    cases h
    exact ⟨rfl, append_labelChars_of_cut?_eq_none hcut⟩
  · next hcut =>
    split at h
    · cases h
    · next hl =>
      cases h
      exact ⟨rfl, append_labelChars_of_cut?_eq_some hcut hl⟩

theorem Layout.exists_front {s : List Char} {layout : Layout} (h : ofChars s = .ok layout) :
    ∃ front build, s = front ++ labelChars '+' build ∧ '+' ∉ front ∧
      ofFront build front = .ok layout := by
  rw [ofChars_eq] at h
  split at h
  · next hcut =>
    obtain ⟨hs, hplus⟩ := append_labelChars_of_cut?_eq_none hcut
    exact ⟨s, none, hs, hplus, h⟩
  · next before _ hcut =>
    split at h
    · cases h
    · next label hl =>
      obtain ⟨hs, hplus⟩ := append_labelChars_of_cut?_eq_some hcut hl
      exact ⟨before, some label, hs, hplus, h⟩

theorem Layout.ofChars_eq_ok_iff {s : List Char} {layout : Layout} :
    ofChars s = .ok layout ↔
      s = layout.core ++ labelChars '-' layout.prerelease ++ labelChars '+' layout.build ∧
        '+' ∉ layout.core ∧ '-' ∉ layout.core := by
  constructor
  · intro h
    obtain ⟨front, build, rfl, hplus, h⟩ := exists_front h
    obtain ⟨rfl, rfl, hminus⟩ := eq_of_ofFront h
    exact ⟨rfl, fun hmem ↦ hplus (List.mem_append_left _ hmem), hminus⟩
  · rintro ⟨rfl, hplus, hminus⟩
    exact ofChars_append hplus hminus layout.prerelease layout.build

/-! ## Versions -/

theorem dropMark_eq_iff {s t : List Char} (h : 'v' ∉ t.head?) :
    dropMark s = t ↔ s = t ∨ s = 'v' :: t := by
  unfold dropMark
  split
  · next rest =>
    rw [List.cons_inj_right]
    refine ⟨.inr, fun h' ↦ h'.resolve_left ?_⟩
    rintro rfl
    exact h rfl
  · next hmark =>
    exact ⟨.inl, fun h' ↦ h'.resolve_right (hmark t)⟩

theorem parse_eq_ok_iff {s : String} {v : Version} : parse s = .ok v ↔
    ∃ core, ∃ numbers : List UInt64,
      dropMark (trim s.toList) =
        core ++ labelChars '-' v.prerelease ++ labelChars '+' v.build ∧
      '+' ∉ core ∧ '-' ∉ core ∧
      (pieces '.' core).map Decimal.readWord? = numbers.map some ∧ numbers.length ≤ 3 ∧
      numbers[0]? = some v.major ∧ numbers[1]?.getD 0 = v.minor ∧ numbers[2]?.getD 0 = v.patch := by
  unfold parse ofChars
  simp only [bind_eq_ok_iff, Layout.ofChars_eq_ok_iff, Prod.exists, readCore_eq_ok_iff, pure,
    Except.pure, Except.ok.injEq]
  constructor
  · rintro ⟨⟨core, prerelease, build⟩, ⟨hs, hplus, hminus⟩, major, _, _,
      ⟨numbers, hnumbers, hle, hmajor, rfl, rfl⟩, rfl⟩
    exact ⟨core, numbers, hs, hplus, hminus, hnumbers, hle, hmajor, rfl, rfl⟩
  · rintro ⟨core, numbers, hs, hplus, hminus, hnumbers, hle, hmajor, hminor, hpatch⟩
    refine ⟨⟨core, v.prerelease, v.build⟩, ⟨hs, hplus, hminus⟩, v.major, numbers[1]?, numbers[2]?,
      ⟨numbers, hnumbers, hle, hmajor, rfl, rfl⟩, ?_⟩
    rw [hminor, hpatch]

/-! ## Reading spellings -/

namespace Spelling

variable {p : Spelling} {s : String} {v : Version}

theorem mem_core {c : Char} (h : c ∈ joined '.' p.numerals) :
    c = '.' ∨ Decimal.isDigit c = true :=
  (Text.mem_of_mem_joined h).imp_right fun ⟨numeral, hnumeral, hc⟩ ↦
    (p.isNumeral numeral hnumeral).digits c hc

theorem not_mem_core {c : Char} (hdot : c ≠ '.') (hdigit : Decimal.isDigit c = false) :
    c ∉ joined '.' p.numerals := fun h ↦
  (mem_core h).elim hdot fun hc ↦ Bool.false_ne_true (hdigit.symm.trans hc)

theorem isVersionChar_of_mem {c : Char} (h : c ∈ p.chars) : isVersionChar c = true := by
  rw [chars, List.mem_append, List.mem_append] at h
  rcases h with (h | h) | h
  · exact isVersionChar_of_core (mem_core h)
  · exact isVersionChar_of_label rfl h
  · exact isVersionChar_of_label rfl h

theorem pieces_core : pieces '.' (joined '.' p.numerals) = p.numerals :=
  Text.pieces_joined_of_not_mem (List.ne_nil_of_length_pos p.length_pos) fun numeral hnumeral hdot ↦
    Bool.false_ne_true ((p.isNumeral numeral hnumeral).digits '.' hdot)

/-- A spelling begins with a digit. -/
theorem exists_chars (p : Spelling) :
    ∃ c rest, p.chars = c :: rest ∧ Decimal.isDigit c = true := by
  obtain ⟨first, more, hnumerals⟩ :=
    List.exists_cons_of_ne_nil (List.ne_nil_of_length_pos p.length_pos)
  have hfirst := p.isNumeral first (hnumerals ▸ List.mem_cons_self)
  obtain ⟨c, rest, rfl⟩ := List.exists_cons_of_ne_nil hfirst.nonempty
  have hcore : joined '.' ((c :: rest) :: more) = c :: joined '.' (rest :: more) :=
    Text.joined_append '.' [c] rest more
  refine ⟨c, joined '.' (rest :: more) ++ (labelChars '-' p.prerelease ++ labelChars '+' p.build),
    ?_, hfirst.digits c List.mem_cons_self⟩
  rw [chars, hnumerals, hcore, List.append_assoc, List.cons_append]

theorem not_mem_head?_append (p : Spelling) (t : List Char) : 'v' ∉ (p.chars ++ t).head? := by
  obtain ⟨c, rest, hchars, hc⟩ := p.exists_chars
  rw [hchars]
  rintro ⟨rfl⟩
  cases hc

theorem not_mem_head? : 'v' ∉ p.chars.head? := by
  simpa using p.not_mem_head?_append []

theorem spells_iff : p.Spells s ↔ dropMark (trim s.toList) = p.chars :=
  (dropMark_eq_iff p.not_mem_head?).symm

/-- Nothing but the characters of versions stands between the blanks. -/
theorem Spells.isVersionChar_of_mem (h : p.Spells s) {c : Char} (hc : c ∈ trim s.toList) :
    isVersionChar c = true := by
  rcases h with hs | hs <;> rw [hs] at hc
  · exact Spelling.isVersionChar_of_mem hc
  · rcases List.mem_cons.mp hc with rfl | hc
    · rfl
    · exact Spelling.isVersionChar_of_mem hc

theorem exists_denotes_of_parse (h : parse s = .ok v) :
    ∃ p : Spelling, p.Spells s ∧ p.Denotes v := by
  obtain ⟨core, numbers, hs, _, _, hnumbers, hle, hmajor, hminor, hpatch⟩ := parse_eq_ok_iff.mp h
  have hlength := length_eq_of_map hnumbers
  let p : Spelling :=
    { numerals := pieces '.' core
      prerelease := v.prerelease
      build := v.build
      length_pos := List.length_pos_iff.mpr (Text.pieces_ne_nil '.' core)
      length_le := hlength.trans_le hle
      isNumeral := isNumeral_of_map_readWord? hnumbers }
  have hvalue (k : Nat) : p.value k = (numbers[k]?.getD 0).toNat := value_eq_of_map hnumbers k
  refine ⟨p, spells_iff.mpr ?_, ?_, ?_, ?_, rfl, rfl⟩
  · rw [hs, chars, Text.joined_pieces]
  · rw [hvalue, hmajor, Option.getD_some]
  · rw [hvalue, hminor]
  · rw [hvalue, hpatch]

theorem parse_of_denotes (h : p.Spells s) (hv : p.Denotes v) : parse s = .ok v := by
  obtain ⟨numbers, hnumbers⟩ := exists_map_readWord? p.isNumeral
  have hlength := length_eq_of_map hnumbers
  have hvalue (k : Nat) : numbers[k]?.getD 0 = UInt64.ofNat (p.value k) := by
    rw [value, value_eq_of_map hnumbers k, UInt64.ofNat_toNat]
  have hmajor : numbers[0]? = some (numbers[0]?.getD 0) := by
    rw [List.getElem?_eq_getElem (hlength ▸ p.length_pos), Option.getD_some]
  refine parse_eq_ok_iff.mpr ⟨joined '.' p.numerals, numbers, ?_, not_mem_core (by decide) rfl,
    not_mem_core (by decide) rfl, ?_, hlength ▸ p.length_le, ?_, ?_, ?_⟩
  · rw [spells_iff.mp h, chars, hv.prerelease, hv.build]
  · rw [pieces_core, hnumbers]
  · rw [hmajor, hvalue, ← hv.major, UInt64.ofNat_toNat]
  · rw [hvalue, ← hv.minor, UInt64.ofNat_toNat]
  · rw [hvalue, ← hv.patch, UInt64.ofNat_toNat]

theorem value_lt (p : Spelling) (k : Nat) : p.value k < UInt64.size := by
  unfold value
  cases h : p.numerals[k]? with
  | none => exact Nat.two_pow_pos 64
  | some numeral => exact (p.isNumeral numeral (List.mem_of_getElem? h)).small

theorem exists_denotes (p : Spelling) : ∃ v, p.Denotes v :=
  ⟨⟨.ofNat (p.value 0), .ofNat (p.value 1), .ofNat (p.value 2), p.prerelease, p.build⟩,
    UInt64.toNat_ofNat_of_lt' (p.value_lt 0), UInt64.toNat_ofNat_of_lt' (p.value_lt 1),
    UInt64.toNat_ofNat_of_lt' (p.value_lt 2), rfl, rfl⟩

end Spelling

/-- A text is read as a version exactly if it is written in the grammar, as the version with the
numbers and labels that are written, and what is read is read again from its text. -/
theorem parse_iff_spelling (s : String) :
    (∀ v, parse s = .ok v ↔ ∃ p : Spelling, p.Spells s ∧ p.Denotes v) ∧
      ((∃ v, parse s = .ok v) ↔ ∃ p : Spelling, p.Spells s) ∧
      ∀ v, parse s = .ok v → parse v.text = .ok v := by
  refine ⟨fun v ↦ ⟨Spelling.exists_denotes_of_parse, fun ⟨p, hp, hv⟩ ↦ p.parse_of_denotes hp hv⟩,
    ⟨?_, ?_⟩, fun v _ ↦ parse_text v⟩
  · rintro ⟨v, hv⟩
    obtain ⟨p, hp, _⟩ := Spelling.exists_denotes_of_parse hv
    exact ⟨p, hp⟩
  · rintro ⟨p, hp⟩
    obtain ⟨v, hv⟩ := p.exists_denotes
    exact ⟨v, p.parse_of_denotes hp hv⟩

end SheetPackages.Version
