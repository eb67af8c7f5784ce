import SheetPackages.Proofs.Version.Comparators

/-!
# Intervals of comparators

The operators `^`, `~` and `~=` compare leading numbers and ask for a least version. What they
accept is an interval: the versions from the written one on, missing numbers being zero, of which
the numbers come before a limit. Limits are natural numbers, so there is one above the greatest
number of a version too, and prereleases of a limit have its numbers and are refused. Behind `==` an
open end asks for the written numbers only, so prereleases before the least version are accepted.
-/

namespace SheetPackages.Version

open Text (joined trim)

/-! ## Limits -/

/-- The numbers of a version, which are compared from the left. -/
def numbers (v : Version) : List Nat :=
  [v.major.toNat, v.minor.toNat, v.patch.toNat]

/-- Where `^` ends when the first `count` numbers of `lo` have been written. -/
def caretLimit (lo : Version) (count : Nat) : List Nat :=
  if 0 < lo.major.toNat ∨ count ≤ 1 then [lo.major.toNat + 1, 0, 0]
  else if 0 < lo.minor.toNat ∨ count ≤ 2 then [0, lo.minor.toNat + 1, 0]
  else [0, 0, lo.patch.toNat + 1]

/-- Where `~` ends. -/
def tildeLimit (lo : Version) (count : Nat) : List Nat :=
  if count ≤ 1 then [lo.major.toNat + 1, 0, 0] else [lo.major.toNat, lo.minor.toNat + 1, 0]

/-- Where `~=` ends. -/
def compatibleLimit (lo : Version) (count : Nat) : List Nat :=
  if count ≤ 2 then [lo.major.toNat + 1, 0, 0] else [lo.major.toNat, lo.minor.toNat + 1, 0]

section

variable {lo w : Version}

theorem numbers_lt_iff {a b c : Nat} : w.numbers < [a, b, c] ↔
    w.major.toNat < a ∨ w.major.toNat = a ∧
      (w.minor.toNat < b ∨ w.minor.toNat = b ∧ w.patch.toNat < c) := by
  simp [numbers, List.cons_lt_cons_iff]

/-- Precedence looks at the numbers first. -/
theorem not_numbers_lt_of_le (h : lo.le w = true) :
    ¬w.numbers < [lo.major.toNat, lo.minor.toNat, lo.patch.toNat] := by
  intro hlt
  have hgt : lo.compareNumbers w = .gt := by
    rw [numbers_lt_iff] at hlt
    simp only [compareNumbers, Ordering.then_eq_gt, Ordering.then_eq_eq, Nat.compare_eq_gt,
      Nat.compare_eq_eq]
    omega
  rw [le, precedence, hgt] at h
  cases h

/-- From `lo` on, the next major number ends the versions with the same one. -/
theorem lt_nextMajor_iff (h : lo.le w = true) :
    w.numbers < [lo.major.toNat + 1, 0, 0] ↔ w.major = lo.major := by
  have hle := not_numbers_lt_of_le h
  rw [numbers_lt_iff] at hle ⊢
  rw [← UInt64.toNat_inj]
  omega

theorem lt_nextMinor_iff (h : lo.le w = true) :
    w.numbers < [lo.major.toNat, lo.minor.toNat + 1, 0] ↔
      w.major = lo.major ∧ w.minor = lo.minor := by
  have hle := not_numbers_lt_of_le h
  rw [numbers_lt_iff] at hle ⊢
  rw [← UInt64.toNat_inj, ← UInt64.toNat_inj]
  omega

theorem lt_nextPatch_iff (h : lo.le w = true) :
    w.numbers < [lo.major.toNat, lo.minor.toNat, lo.patch.toNat + 1] ↔
      w.major = lo.major ∧ w.minor = lo.minor ∧ w.patch = lo.patch := by
  have hle := not_numbers_lt_of_le h
  rw [numbers_lt_iff] at hle ⊢
  rw [← UInt64.toNat_inj, ← UInt64.toNat_inj, ← UInt64.toNat_inj]
  omega

end

/-! ## Leading numbers -/

/-- A version of which the first `count` numbers and the prerelease label are given. -/
def leading (v : Version) (count : Nat) : Partial where
  major := v.major
  minor := if count ≤ 1 then none else some v.minor
  patch := if count ≤ 2 then none else some v.patch
  prerelease := v.prerelease

/-- Behind the first `count` numbers there are only zeros. -/
structure ZeroBehind (v : Version) (count : Nat) : Prop where
  minor : count ≤ 1 → v.minor = 0
  patch : count ≤ 2 → v.patch = 0

section

variable {lo w : Version} {count : Nat}

theorem toVersion_leading_le (h : lo.ZeroBehind count) (w : Version) :
    (lo.leading count).toVersion.le w = lo.le w := by
  have hminor : (lo.leading count).minor.getD 0 = lo.minor := by
    by_cases hcount : count ≤ 1 <;> simp [leading, hcount, h.minor]
  have hpatch : (lo.leading count).patch.getD 0 = lo.patch := by
    by_cases hcount : count ≤ 2 <;> simp [leading, hcount, h.patch]
  rw [Partial.toVersion, hminor, hpatch]
  rfl

theorem matchesTilde_leading_iff (h : lo.ZeroBehind count) :
    (lo.leading count).matchesTilde w = true ↔
      lo.le w = true ∧ w.numbers < lo.tildeLimit count := by
  rw [Partial.matchesTilde, toVersion_leading_le h, tildeLimit]
  cases hle : lo.le w with
  | false => simp
  | true =>
    by_cases hcount : count ≤ 1
    · simp [leading, hcount, lt_nextMajor_iff hle]
    · simp [leading, hcount, lt_nextMinor_iff hle]

theorem matchesCompatible_leading_iff (h : lo.ZeroBehind count) :
    (lo.leading count).matchesCompatible w = true ↔
      lo.le w = true ∧ w.numbers < lo.compatibleLimit count := by
  rw [Partial.matchesCompatible, toVersion_leading_le h, compatibleLimit]
  cases hle : lo.le w with
  | false => simp
  | true =>
    by_cases hcount : count ≤ 2
    · simp [leading, hcount, lt_nextMajor_iff hle]
    · have hone : ¬count ≤ 1 := by omega
      simp [leading, hcount, hone, lt_nextMinor_iff hle]

theorem matchesCaret_leading_iff (h : lo.ZeroBehind count) :
    (lo.leading count).matchesCaret w = true ↔
      lo.le w = true ∧ w.numbers < lo.caretLimit count := by
  rw [Partial.matchesCaret, toVersion_leading_le h, caretLimit]
  have hpositive (n : UInt64) : n > 0 ↔ 0 < n.toNat := UInt64.lt_iff_toNat_lt
  cases hle : lo.le w with
  | false => simp
  | true =>
    by_cases hmajor : 0 < lo.major.toNat
    · simp [leading, hpositive, hmajor, lt_nextMajor_iff hle]
    · have hzero : lo.major.toNat = 0 := by omega
      have hnextMinor := lt_nextMinor_iff hle
      have hnextPatch := lt_nextPatch_iff hle
      rw [hzero] at hnextMinor hnextPatch
      by_cases hone : count ≤ 1
      · simp [leading, hone, lt_nextMajor_iff hle]
      · by_cases htwo : count ≤ 2
        · simp [leading, hpositive, hmajor, hone, htwo, hnextMinor]
        · by_cases hminor : 0 < lo.minor.toNat
          · simp [leading, hpositive, hmajor, hone, htwo, hminor, hnextMinor]
          · have hminorZero : lo.minor.toNat = 0 := by omega
            rw [hminorZero] at hnextPatch
            simp [leading, hpositive, hmajor, hone, htwo, hminor, hnextPatch]

/-- Behind an open end the prerelease label is not compared. -/
theorem matchesExact_leading_iff (hpos : 1 ≤ count) (h : count ≤ 2) :
    (lo.leading count).matchesExact w = true ↔ lo.numbers.take count <+: w.numbers := by
  obtain rfl | rfl : count = 1 ∨ count = 2 := by omega
  all_goals
    simp [Partial.matchesExact, leading, numbers, UInt64.toNat_inj, @eq_comm _ w.major,
      @eq_comm _ w.minor]

end

/-! ## Reading -/

namespace Spelling

variable {p : Spelling} {s : String} {lo : Version}

theorem value_eq_zero {k : Nat} (h : p.numerals.length ≤ k) : p.value k = 0 := by
  rw [value, List.getElem?_eq_none h]
  rfl

theorem zeroBehind (h : p.Denotes lo) : lo.ZeroBehind p.numerals.length where
  minor hcount := UInt64.toNat_inj.mp (h.minor.trans (value_eq_zero hcount))
  patch hcount := UInt64.toNat_inj.mp (h.patch.trans (value_eq_zero hcount))

/-- The written numbers are the first ones of the version. -/
theorem map_value_numerals (h : p.Denotes lo) :
    p.numerals.map Decimal.value = lo.numbers.take p.numerals.length := by
  obtain ⟨hmajor, hminor, hpatch, _, _⟩ := h
  obtain ⟨numerals, prerelease, build, hpos, hle, _⟩ := p
  rcases numerals with _ | ⟨a, _ | ⟨b, _ | ⟨c, _ | ⟨d, more⟩⟩⟩⟩
  case nil => simp at hpos
  case cons.cons.cons.cons =>
    simp only [List.length_cons] at hle
    omega
  all_goals simp_all [numbers, value]

theorem exists_numbers (p : Spelling) : ∃ numbers : List UInt64,
    p.numerals.map Decimal.readWord? = numbers.map some ∧ numbers.length = p.numerals.length ∧
      ∀ k < p.numerals.length, numbers[k]? = some (.ofNat (p.value k)) := by
  obtain ⟨numbers, hnumbers⟩ := exists_map_readWord? p.isNumeral
  have hlength := length_eq_of_map hnumbers
  refine ⟨numbers, hnumbers, hlength.symm, fun k hk ↦ ?_⟩
  have hget : numbers[k]? = some numbers[k] := List.getElem?_eq_getElem (hlength ▸ hk)
  rw [value, value_eq_of_map hnumbers k, hget, Option.getD_some, UInt64.ofNat_toNat]

theorem readCore_numerals (h : p.Denotes lo) (input : List Char) :
    readCore input (joined '.' p.numerals) = .ok (lo.major,
      (lo.leading p.numerals.length).minor, (lo.leading p.numerals.length).patch) := by
  obtain ⟨numbers, hnumbers, hlength, hget⟩ := p.exists_numbers
  refine readCore_eq_ok_iff.mpr
    ⟨numbers, by rw [pieces_core, hnumbers], hlength ▸ p.length_le, ?_, ?_, ?_⟩
  · rw [hget 0 p.length_pos, ← h.major, UInt64.ofNat_toNat]
  · by_cases hcount : p.numerals.length ≤ 1
    · rw [leading, if_pos hcount, List.getElem?_eq_none (hlength ▸ hcount)]
    · rw [leading, if_neg hcount, hget 1 (by omega), ← h.minor, UInt64.ofNat_toNat]
  · by_cases hcount : p.numerals.length ≤ 2
    · rw [leading, if_pos hcount, List.getElem?_eq_none (hlength ▸ hcount)]
    · rw [leading, if_neg hcount, hget 2 (by omega), ← h.patch, UInt64.ofNat_toNat]

/-- A text of a version is read as its written numbers, with or without an open end. -/
theorem ofChars_partial (hs : p.Spells s) (h : p.Denotes lo) (wild : Bool) :
    Partial.ofChars (trim s.toList ++ Partial.openEnd wild) =
      .ok (lo.leading p.numerals.length) := by
  have hmark : dropMark (trim s.toList ++ Partial.openEnd wild) =
      p.chars ++ Partial.openEnd wild := by
    refine (dropMark_eq_iff (p.not_mem_head?_append _)).mpr (hs.imp ?_ ?_)
    · exact fun heq ↦ congrArg (· ++ Partial.openEnd wild) heq
    · exact fun heq ↦ congrArg (· ++ Partial.openEnd wild) heq
  have hstar : '*' ∉ p.chars := fun hmem ↦ Bool.false_ne_true (isVersionChar_of_mem hmem)
  have hlayout : Layout.ofChars p.chars =
      .ok ⟨joined '.' p.numerals, p.prerelease, p.build⟩ :=
    Layout.ofChars_append (not_mem_core (by decide) rfl) (not_mem_core (by decide) rfl) _ _
  simp only [Partial.ofChars, hmark, Partial.dropWildcard_append hstar, hlayout,
    readCore_numerals h, bind, Except.bind]
  rw [← h.prerelease]
  rfl

theorem star_not_mem (hs : p.Spells s) : '*' ∉ trim s.toList :=
  fun hmem ↦ Bool.false_ne_true (hs.isVersionChar_of_mem hmem)

/-- An operator before a text of a version, with or without an open end. -/
theorem ofChars_comparator (op : Operator) (hop : op ≠ .wildcard) (hs : p.Spells s)
    (h : p.Denotes lo) (wild : Bool) {written : List Char}
    (hwritten : trim written = trim s.toList ++ Partial.openEnd wild)
    (hsettle : Comparator.settle op (trim written) (lo.leading p.numerals.length) =
      .ok (lo.leading p.numerals.length)) :
    Comparator.ofChars (op.chars ++ written) = .ok ⟨op, lo.leading p.numerals.length⟩ := by
  have hequals : '=' ∉ trim written := by
    rw [hwritten, List.mem_append, not_or]
    refine ⟨fun hmem ↦ Bool.false_ne_true (hs.isVersionChar_of_mem hmem), ?_⟩
    cases wild <;> decide
  have hne : trim written ≠ [] := by
    obtain ⟨c, rest, hchars, _⟩ := p.exists_chars
    rw [hwritten]
    rcases hs with heq | heq <;> simp [heq, hchars]
  rw [Comparator.ofChars_append hop fun hhead ↦ hequals (List.mem_of_head? hhead)]
  refine Comparator.behind_eq_ok_iff.mpr ⟨hne, rfl, _, ?_, hsettle⟩
  rw [hwritten]
  exact ofChars_partial hs h wild

theorem parse_comparator (op : Operator) (hop : op ≠ .wildcard) (hs : p.Spells s)
    (h : p.Denotes lo) (hsettle : Comparator.settle op (trim s.toList)
      (lo.leading p.numerals.length) = .ok (lo.leading p.numerals.length)) :
    Comparator.parse (String.ofList op.chars ++ s) = .ok ⟨op, lo.leading p.numerals.length⟩ := by
  rw [Comparator.parse, String.toList_append, String.toList_ofList]
  exact ofChars_comparator op hop hs h false (List.append_nil _).symm hsettle

theorem parse_exact_openEnd (hs : p.Spells s) (h : p.Denotes lo) :
    Comparator.parse ("==" ++ Text.trimmed s ++ ".*") =
      .ok ⟨.exact, lo.leading p.numerals.length⟩ := by
  have hchars : ("==" ++ Text.trimmed s ++ ".*").toList =
      Operator.exact.chars ++ (trim s.toList ++ Partial.openEnd true) := by
    simp [Text.trimmed, Operator.chars, Partial.openEnd]
  have htrim : trim (trim s.toList ++ Partial.openEnd true) =
      trim s.toList ++ Partial.openEnd true := by
    refine Text.trim_of_forall (List.forall_mem_append.mpr ⟨fun c hc ↦ ?_, ?_⟩)
    · exact isBlank_of_isVersionChar (hs.isVersionChar_of_mem hc)
    · exact List.forall_mem_cons.mpr ⟨rfl, List.forall_mem_singleton.mpr rfl⟩
  have hwild : Partial.endsInWildcard (trim s.toList ++ Partial.openEnd true) = true :=
    Partial.endsInWildcard_append (star_not_mem hs) true
  rw [Comparator.parse, hchars]
  refine ofChars_comparator .exact (by decide) hs h true htrim ?_
  rw [htrim, Comparator.settle, hwild]
  rfl

end Spelling

/-- What `^`, `~` and `~=` accept behind a text of the version `lo` are the versions from `lo` on
with numbers before the limit of the operator, and what `==` accepts behind such a text with an open
end are the versions that begin with the written numbers. -/
theorem operators_denote_intervals (p : Spelling) (s : String) (lo : Version) (hs : p.Spells s)
    (hlo : p.Denotes lo) :
    (∃ caret, Comparator.parse ("^" ++ s) = .ok caret ∧ ∀ w, caret.accepts w = true ↔
      lo.le w = true ∧ w.numbers < lo.caretLimit p.numerals.length) ∧
    (∃ tilde, Comparator.parse ("~" ++ s) = .ok tilde ∧ ∀ w, tilde.accepts w = true ↔
      lo.le w = true ∧ w.numbers < lo.tildeLimit p.numerals.length) ∧
    (2 ≤ p.numerals.length →
      ∃ compatible, Comparator.parse ("~=" ++ s) = .ok compatible ∧ ∀ w,
        compatible.accepts w = true ↔
          lo.le w = true ∧ w.numbers < lo.compatibleLimit p.numerals.length) ∧
    (p.numerals.length ≤ 2 →
      ∃ equal, Comparator.parse ("==" ++ Text.trimmed s ++ ".*") = .ok equal ∧ ∀ w,
        equal.accepts w = true ↔ p.numerals.map Decimal.value <+: w.numbers) := by
  have hclosed : Partial.endsInWildcard (trim s.toList) = false :=
    Partial.endsInWildcard_of_not_mem (Spelling.star_not_mem hs)
  have hzero := Spelling.zeroBehind hlo
  refine ⟨⟨_, Spelling.parse_comparator .caret (by decide) hs hlo ?_,
      fun w ↦ matchesCaret_leading_iff hzero⟩,
    ⟨_, Spelling.parse_comparator .tilde (by decide) hs hlo ?_,
      fun w ↦ matchesTilde_leading_iff hzero⟩,
    fun hcount ↦ ⟨_, Spelling.parse_comparator .compatible (by decide) hs hlo ?_,
      fun w ↦ matchesCompatible_leading_iff hzero⟩,
    fun hcount ↦ ⟨_, Spelling.parse_exact_openEnd hs hlo, fun w ↦ ?_⟩⟩
  · rw [Comparator.settle, hclosed]
    rfl
  · rw [Comparator.settle, hclosed]
    rfl
  · have hminor : (lo.leading p.numerals.length).minor.isNone = false := by
      rw [leading, if_neg (by omega), Option.isNone_some]
    rw [Comparator.settle, hclosed, hminor]
    rfl
  · rw [Spelling.map_value_numerals hlo]
    exact matchesExact_leading_iff p.length_pos hcount

/-- Two numbers with leading zeros, the first of them zero, and both labels. -/
def zeroMajor : Spelling where
  numerals := ["00".toList, "07".toList]
  prerelease := some ⟨[⟨"rc".toList, by decide, by decide⟩], by decide⟩
  build := some ⟨[⟨"b".toList, by decide, by decide⟩], by decide⟩
  length_pos := by decide
  length_le := by decide
  isNumeral := List.forall_mem_cons.mpr ⟨⟨by decide, List.all_eq_true.mp rfl, by decide⟩,
    List.forall_mem_cons.mpr ⟨⟨by decide, List.all_eq_true.mp rfl, by decide⟩, nofun⟩⟩

/-- A prerelease of the limit is refused by `^` and `~`, and one before the least version is
accepted by the open end only. -/
theorem operators_denote_intervals_zeroMajor :
    let next : Version := ⟨0, 8, 0, some ⟨[⟨"a".toList, by decide, by decide⟩], by decide⟩, none⟩
    let early : Version := ⟨0, 7, 0, some ⟨[⟨"a".toList, by decide, by decide⟩], by decide⟩, none⟩
    ∃ caret tilde compatible equal, Comparator.parse "^ v00.07-rc+b " = .ok caret ∧
      Comparator.parse "~ v00.07-rc+b " = .ok tilde ∧
      Comparator.parse "~= v00.07-rc+b " = .ok compatible ∧
      Comparator.parse "==v00.07-rc+b.*" = .ok equal ∧ caret.accepts next = false ∧
      tilde.accepts next = false ∧ compatible.accepts next = true ∧
      compatible.accepts early = false ∧ equal.accepts early = true := by
  intro next early
  let lo : Version := ⟨0, 7, 0, zeroMajor.prerelease, zeroMajor.build⟩
  have hs : zeroMajor.Spells " v00.07-rc+b " := .inr rfl
  have hlo : zeroMajor.Denotes lo := ⟨by decide, by decide, by decide, rfl, rfl⟩
  obtain ⟨⟨caret, hcaret, hcaretAccepts⟩, ⟨tilde, htilde, htildeAccepts⟩, hcompatible, hequal⟩ :=
    operators_denote_intervals zeroMajor _ lo hs hlo
  obtain ⟨compatible, hcompatible, hcompatibleAccepts⟩ := hcompatible (by decide)
  obtain ⟨equal, hequal, hequalAccepts⟩ := hequal (by decide)
  refine ⟨caret, tilde, compatible, equal, hcaret, htilde, hcompatible, hequal, ?_, ?_, ?_, ?_, ?_⟩
  · exact Bool.eq_false_iff.mpr fun h ↦ absurd ((hcaretAccepts next).mp h) (by decide)
  · exact Bool.eq_false_iff.mpr fun h ↦ absurd ((htildeAccepts next).mp h) (by decide)
  · exact (hcompatibleAccepts next).mpr (by decide)
  · exact Bool.eq_false_iff.mpr fun h ↦ absurd ((hcompatibleAccepts early).mp h) (by decide)
  · exact (hequalAccepts early).mpr (by decide)

end SheetPackages.Version
