import SheetPackages.Proofs.Decimal.Digits
import SheetPackages.Proofs.Text.Cutting
import SheetPackages.Proofs.Version.Precedence
import SheetPackages.Proofs.Workbook.Lists
import SheetPackages.Version.Range

/-!
# Written versions

A version is read back from its text. A range that asks for exactly the version that a text was
written for is read as such, and accepts just the versions that differ from it in the build label.
Other texts of versions, with a mark, with blanks or with fewer numbers, are not described here.
-/

namespace SheetPackages.Version

open Text (joined pieces trim)

/-! ## Characters -/

/-- The characters with which versions are written. -/
def isVersionChar (c : Char) : Bool :=
  isIdentifierChar c || c == '.' || c == '+'

theorem isIdentifierChar_of_isDigit {c : Char} (h : Decimal.isDigit c = true) :
    isIdentifierChar c = true := by
  rw [isIdentifierChar, Text.isAlphanumeric, h, Bool.true_or, Bool.true_or]

theorem isIdentifierChar_of_mem {i : Identifier} {c : Char} (h : c ∈ i.chars) :
    isIdentifierChar c = true :=
  List.all_eq_true.mp i.valid c h

theorem Label.mem_chars {l : Label} {c : Char} (h : c ∈ l.chars) :
    c = '.' ∨ isIdentifierChar c = true := by
  refine (Text.mem_of_mem_joined h).imp_right fun ⟨piece, hpiece, hc⟩ ↦ ?_
  obtain ⟨i, _, rfl⟩ := List.mem_map.mp hpiece
  exact isIdentifierChar_of_mem hc

theorem mem_labelChars {mark c : Char} {label : Option Label} (h : c ∈ labelChars mark label) :
    c = mark ∨ c = '.' ∨ isIdentifierChar c = true := by
  cases label with
  | none => cases h
  | some l => exact (List.mem_cons.mp h).imp_right Label.mem_chars

theorem isVersionChar_of_isIdentifierChar {c : Char} (h : isIdentifierChar c = true) :
    isVersionChar c = true := by
  rw [isVersionChar, h, Bool.true_or, Bool.true_or]

theorem isVersionChar_of_core {c : Char} (h : c = '.' ∨ Decimal.isDigit c = true) :
    isVersionChar c = true := by
  rcases h with rfl | hc
  · rfl
  · exact isVersionChar_of_isIdentifierChar (isIdentifierChar_of_isDigit hc)

theorem isVersionChar_of_label {mark c : Char} {label : Option Label}
    (hmark : isVersionChar mark = true) (h : c ∈ labelChars mark label) :
    isVersionChar c = true := by
  rcases mem_labelChars h with rfl | rfl | hc
  · exact hmark
  · rfl
  · exact isVersionChar_of_isIdentifierChar hc

/-- The three numbers of a version as they are written. -/
def coreChars (v : Version) : List Char :=
  joined '.' [Decimal.digits v.major.toNat, Decimal.digits v.minor.toNat,
    Decimal.digits v.patch.toNat]

theorem mem_coreChars {v : Version} {c : Char} (h : c ∈ v.coreChars) :
    c = '.' ∨ Decimal.isDigit c = true := by
  refine (Text.mem_of_mem_joined h).imp_right fun ⟨number, hnumber, hc⟩ ↦ ?_
  simp only [List.mem_cons, List.not_mem_nil, or_false] at hnumber
  rcases hnumber with rfl | rfl | rfl <;> exact Decimal.isDigit_of_mem_digits hc

/-- A written version begins with a digit. -/
theorem exists_chars (v : Version) :
    ∃ c rest, v.chars = c :: rest ∧ Decimal.isDigit c = true := by
  cases hmajor : Decimal.digits v.major.toNat with
  | nil => exact absurd hmajor (Decimal.digits_ne_nil _)
  | cons c rest =>
    refine ⟨c, _, by rw [chars, hmajor]; rfl, ?_⟩
    exact Decimal.isDigit_of_mem_digits (hmajor ▸ List.mem_cons_self)

theorem chars_ne_nil (v : Version) : v.chars ≠ [] := by
  obtain ⟨c, rest, hchars, _⟩ := v.exists_chars
  rw [hchars]
  exact List.cons_ne_nil c rest

theorem isVersionChar_of_mem {v : Version} {c : Char} (h : c ∈ v.chars) :
    isVersionChar c = true := by
  change c ∈ v.coreChars ++ labelChars '-' v.prerelease ++ labelChars '+' v.build at h
  rw [List.mem_append, List.mem_append] at h
  rcases h with (h | h) | h
  · exact isVersionChar_of_core (mem_coreChars h)
  · exact isVersionChar_of_label rfl h
  · exact isVersionChar_of_label rfl h

theorem isBlank_of_isVersionChar {c : Char} (hc : isVersionChar c = true) :
    Text.isBlank c = false := by
  rw [isVersionChar, Bool.or_eq_true, Bool.or_eq_true, beq_iff_eq, beq_iff_eq] at hc
  rcases hc with (hc | rfl) | rfl
  · apply Dependency.not_isBlank
    rw [isIdentifierChar, Bool.or_eq_true] at hc
    rw [Dependency.isNameChar]
    rcases hc with hc | hc <;> simp [hc]
  · rfl
  · rfl

theorem isBlank_of_mem_chars {v : Version} {c : Char} (h : c ∈ v.chars) :
    Text.isBlank c = false :=
  isBlank_of_isVersionChar (isVersionChar_of_mem h)

theorem not_mem_chars {v : Version} {c : Char} (h : isVersionChar c = false) : c ∉ v.chars :=
  fun hc ↦ Bool.false_ne_true (h.symm.trans (isVersionChar_of_mem hc))

/-! ## Reading back -/

theorem Identifier.ofChars?_chars (i : Identifier) : ofChars? i.chars = some i :=
  dif_pos ⟨i.nonempty, i.valid⟩

theorem mapM_ofChars? (parts : List Identifier) :
    (parts.map Identifier.chars).mapM Identifier.ofChars? = some parts := by
  induction parts with
  | nil => rfl
  | cons i rest ih =>
    rw [List.map_cons, List.mapM_cons, Identifier.ofChars?_chars, ih]
    rfl

theorem Label.ofChars?_chars (l : Label) : ofChars? l.chars = some l := by
  have hpieces : pieces '.' l.chars = l.parts.map Identifier.chars := by
    refine Text.pieces_joined_of_not_mem (mt List.map_eq_nil_iff.mp l.nonempty) ?_
    rintro piece hpiece hdot
    obtain ⟨i, _, rfl⟩ := List.mem_map.mp hpiece
    exact Bool.false_ne_true (isIdentifierChar_of_mem hdot)
  rw [ofChars?, hpieces, mapM_ofChars?]
  exact dif_pos l.nonempty

theorem cut?_append_labelChars {mark : Char} {s : List Char} (h : mark ∉ s)
    (label : Option Label) :
    Text.cut? mark (s ++ labelChars mark label) = label.map fun l ↦ (s, l.chars) := by
  cases label with
  | none => rw [labelChars, List.append_nil, Text.cut?_of_not_mem h, Option.map_none]
  | some l => rw [labelChars, Text.cut?_append h, Option.map_some]

/-- The build label is behind the first `+`, the prerelease label behind the first `-`. -/
theorem Layout.ofChars_append {core : List Char} (hplus : '+' ∉ core) (hminus : '-' ∉ core)
    (prerelease build : Option Label) :
    Layout.ofChars (core ++ labelChars '-' prerelease ++ labelChars '+' build) =
      .ok ⟨core, prerelease, build⟩ := by
  have hfront : '+' ∉ core ++ labelChars '-' prerelease := by
    intro h
    rcases List.mem_append.mp h with h | h
    · exact hplus h
    · rcases mem_labelChars h with h | h | h <;> cases h
  have hbuild := cut?_append_labelChars hfront build
  have hprerelease := cut?_append_labelChars hminus prerelease
  rw [Layout.ofChars, hbuild]
  cases build <;> cases prerelease <;>
    simp only [labelChars, List.append_nil, Option.map_none, Option.map_some] at hprerelease ⊢ <;>
    simp only [hprerelease, Label.ofChars?_chars, pure_bind] <;> rfl

theorem readCore_coreChars (input : List Char) (v : Version) :
    readCore input v.coreChars = .ok (v.major, some v.minor, some v.patch) := by
  have hpieces : pieces '.' v.coreChars = [Decimal.digits v.major.toNat,
      Decimal.digits v.minor.toNat, Decimal.digits v.patch.toNat] := by
    refine Text.pieces_joined_of_not_mem (List.cons_ne_nil _ _) fun number hnumber hdot ↦ ?_
    simp only [List.mem_cons, List.not_mem_nil, or_false] at hnumber
    rcases hnumber with rfl | rfl | rfl <;>
      exact Bool.false_ne_true (Decimal.isDigit_of_mem_digits hdot)
  simp only [readCore, hpieces, Decimal.digits_ne_nil, or_self, if_false, readNumber,
    Decimal.readWord?_digits]
  rfl

theorem layout_chars (v : Version) :
    Layout.ofChars v.chars = .ok ⟨v.coreChars, v.prerelease, v.build⟩ := by
  have hdigit {c : Char} (hdot : c ≠ '.') (hc : Decimal.isDigit c = false) : c ∉ v.coreChars := by
    intro h
    rcases mem_coreChars h with h | h
    · exact hdot h
    · exact Bool.false_ne_true (hc.symm.trans h)
  exact Layout.ofChars_append (hdigit (by decide) rfl) (hdigit (by decide) rfl) _ _

theorem dropMark_chars (v : Version) : dropMark v.chars = v.chars := by
  obtain ⟨c, rest, hchars, hc⟩ := v.exists_chars
  rw [hchars, dropMark]
  rintro _ h
  cases h
  cases hc

/-- A version is read back from its text. -/
@[simp]
theorem parse_text (v : Version) : parse v.text = .ok v := by
  have htrim : trim v.chars = v.chars :=
    Text.trim_of_forall fun _ ↦ isBlank_of_mem_chars
  rw [parse, text, String.toList_ofList, ofChars]
  simp only [htrim, dropMark_chars, layout_chars, readCore_coreChars, bind, Except.bind]
  rfl

/-! ## Exact ranges -/

theorem Partial.not_isSuffix {s : List Char} (h : '*' ∉ s) : ¬['.', '*'] <:+ s :=
  fun hsuffix ↦ h (hsuffix.subset (by decide))

theorem Partial.dropWildcard_of_not_mem {s : List Char} (h : '*' ∉ s) : dropWildcard s = s := by
  rw [dropWildcard]
  cases hcut : ['.', '*'].isSuffixOf? s with
  | none => rfl
  | some rest =>
    exact absurd ⟨rest, List.isSuffixOf?_eq_some_iff_append_eq.mp hcut⟩ (not_isSuffix h)

theorem Partial.endsInWildcard_of_not_mem {s : List Char} (h : '*' ∉ s) :
    endsInWildcard s = false :=
  Bool.eq_false_iff.mpr fun hsuffix ↦ not_isSuffix h (List.isSuffixOf_iff_suffix.mp hsuffix)

/-- The partial version that gives all of a version but the build label. -/
def toPartial (v : Version) : Partial :=
  ⟨v.major, some v.minor, some v.patch, v.prerelease⟩

theorem Partial.ofChars_chars (v : Version) : Partial.ofChars v.chars = .ok v.toPartial := by
  have hwildcard := Partial.dropWildcard_of_not_mem (v.not_mem_chars (c := '*') rfl)
  simp only [Partial.ofChars, dropMark_chars, hwildcard, layout_chars, readCore_coreChars, bind,
    Except.bind]
  rfl

/-- The range of the versions that are read as `v`, whatever their build labels. -/
def Range.exactly (v : Version) : Range :=
  ⟨[⟨.exact, v.toPartial⟩]⟩

theorem isBlank_of_mem_exact {v : Version} : ∀ c ∈ '=' :: '=' :: v.chars, Text.isBlank c = false :=
  List.forall_mem_cons.mpr ⟨rfl, List.forall_mem_cons.mpr ⟨rfl, fun _ ↦ isBlank_of_mem_chars⟩⟩

theorem Comparator.ofChars_exact (v : Version) :
    Comparator.ofChars ('=' :: '=' :: v.chars) = .ok ⟨.exact, v.toPartial⟩ := by
  have hleading : Operator.leading? ('=' :: '=' :: v.chars) = some (.exact, v.chars) := rfl
  have hstar : '=' :: '=' :: v.chars ≠ ['*'] := by simp
  rw [ofChars]
  simp only [Text.trim_of_forall isBlank_of_mem_exact, if_neg hstar, hleading,
    Text.trim_of_forall fun _ ↦ isBlank_of_mem_chars, if_neg v.chars_ne_nil,
    Partial.ofChars_chars, bind, Except.bind, settle,
    Partial.endsInWildcard_of_not_mem (v.not_mem_chars (c := '*') rfl)]
  rfl

theorem isOperatorChar_of_isDigit {c : Char} (h : Decimal.isDigit c = true) :
    isOperatorChar c = false := by
  refine decide_eq_false fun hmem ↦ ?_
  simp only [List.mem_cons, List.not_mem_nil, or_false] at hmem
  rcases hmem with rfl | rfl | rfl | rfl | rfl | rfl <;> cases h

/-- What asks for exactly the written version is read as the range of it. -/
theorem Range.parse_exactly (v : Version) :
    Range.parse ("==" ++ v.text) = .ok (Range.exactly v) := by
  have hchars : ("==" ++ v.text).toList = '=' :: '=' :: v.chars := by
    simp [Version.text]
  have hcomma : ',' ∉ '=' :: '=' :: v.chars := by
    simpa using not_mem_chars rfl
  have hwords := Text.words_of_forall (List.cons_ne_nil _ _) (isBlank_of_mem_exact (v := v))
  have hoperators : ('=' :: '=' :: v.chars).all isOperatorChar = false := by
    obtain ⟨c, rest, hchars, hc⟩ := v.exists_chars
    simp [hchars, isOperatorChar_of_isDigit hc]
  rw [parse, hchars, ofChars, Text.pieces_of_not_mem hcomma]
  simp only [clauses, hwords, clause, hoperators, Option.getD_none, List.nil_append,
    Comparator.ofChars_exact, bind, Except.bind]
  rfl

/-- Only the build label may differ. -/
theorem Range.accepts_exactly_iff {v w : Version} :
    (Range.exactly v).accepts w = true ↔ w = { v with build := w.build } := by
  obtain ⟨major, minor, patch, prerelease, build⟩ := w
  simp [accepts, exactly, Comparator.accepts, Partial.matchesExact, toPartial, and_assoc]

theorem Range.same_of_accepts_exactly {v w : Version} (h : (Range.exactly v).accepts w = true) :
    v.same w = true := by
  rw [Range.accepts_exactly_iff.mp h]
  exact same_self v

end SheetPackages.Version
