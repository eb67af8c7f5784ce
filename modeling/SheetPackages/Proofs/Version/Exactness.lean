import SheetPackages.Proofs.Version.Comparators
import SheetPackages.Proofs.Version.Semantic

/-!
# Exact comparators

An exact comparator looks at the text of the prerelease label, precedence at the values of the
numbers in it. So `==1.0.0-01` does not accept `1.0.0-1` although neither of the two versions comes
before the other. Only numbers can be written in several ways, and only by leading zeros: for a
version without a number among the identifiers of its label, the exact comparator accepts just the
versions of the same precedence.
-/

namespace SheetPackages.Version

open Text (trim trimRight)

/-! ## Respelled labels -/

namespace Identifier

variable {i j : Identifier}

/-- The two are one number, written in two ways. -/
def Respells (i j : Identifier) : Prop :=
  i ≠ j ∧ ∃ n, i.number? = some n ∧ j.number? = some n

theorem compare_eq_iff : i.compare j = .eq ↔ i = j ∨ i.Respells j := by
  have hself : i = j → i.number? = j.number? := congrArg number?
  unfold compare Respells
  cases hi : i.number? <;> cases hj : j.number? <;> rw [hi, hj] at hself
  case none.none => simp [compareChars_eq_iff]
  case some.some m n =>
    rw [Nat.compare_eq_eq, UInt64.toNat_inj]
    constructor
    · rintro rfl
      exact (em (i = j)).imp_right fun hne ↦ ⟨hne, m, rfl, rfl⟩
    · rintro (heq | ⟨_, _, hm, hn⟩)
      · exact Option.some.inj (hself heq)
      · exact Option.some.inj (hm.trans hn.symm)
  all_goals exact iff_of_false nofun (by simpa using hself)

/-- The same identifier with one more zero in front. -/
def padded (i : Identifier) : Identifier where
  chars := '0' :: i.chars
  nonempty := List.cons_ne_nil _ _
  valid := by
    rw [List.all_cons, i.valid]
    rfl

theorem respells_padded {n : UInt64} (h : i.number? = some n) : i.Respells i.padded := by
  obtain ⟨hnumeric, hvalue⟩ := number?_eq_some_iff.mp h
  refine ⟨fun heq ↦ ?_, n, h, number?_eq_some_iff.mpr ⟨?_, ?_⟩⟩
  · exact List.cons_ne_self '0' i.chars (congrArg chars heq).symm
  · rw [isNumeric, padded, List.all_cons, ← isNumeric, hnumeric]
    rfl
  · exact hvalue

end Identifier

namespace Label

theorem compareParts_eq_eq_iff {is js : List Identifier} :
    compareParts is js = .eq ↔ List.Forall₂ (fun i j ↦ i.compare j = .eq) is js := by
  induction is generalizing js with
  | nil => cases js <;> simp [compareParts]
  | cons i rest ih =>
    cases js with
    | nil => simp [compareParts]
    | cons j more => rw [compareParts, Ordering.then_eq_eq, ih, List.forall₂_cons]

/-- At some place both lists have the same number, written in two ways. -/
def Respelled (is js : List Identifier) : Prop :=
  ∃ (k : Nat) (i j : Identifier), is[k]? = some i ∧ js[k]? = some j ∧ i.Respells j

theorem eq_or_respelled {is js : List Identifier}
    (h : List.Forall₂ (fun i j ↦ i.compare j = .eq) is js) : is = js ∨ Respelled is js := by
  induction h with
  | nil => exact .inl rfl
  | @cons i j _ _ hhead _ ih =>
    rcases Identifier.compare_eq_iff.mp hhead with rfl | hrespells
    · refine ih.imp (congrArg (i :: ·)) ?_
      rintro ⟨k, hk⟩
      exact ⟨k + 1, hk⟩
    · exact .inr ⟨0, i, j, rfl, rfl, hrespells⟩

end Label

/-- Versions of the same precedence with a number in the label that is written in two ways. -/
def Respells (v w : Version) : Prop :=
  v.same w = true ∧ ∃ l m, v.prerelease = some l ∧ w.prerelease = some m ∧
    Label.Respelled l.parts m.parts

/-- Versions of the same precedence have the same label unless one of its numbers is respelled. -/
theorem prerelease_eq_iff_of_same {v w : Version} (h : v.same w = true) :
    v.prerelease = w.prerelease ↔ ¬v.Respells w := by
  obtain ⟨_, _, _, hlabels⟩ := same_iff_parts.mp h
  constructor
  · rintro heq ⟨_, l, m, hl, hm, k, i, j, hi, hj, hne, _⟩
    rw [← heq, hl] at hm
    cases hm
    rw [hi] at hj
    exact hne (Option.some.inj hj)
  · intro hnot
    cases hl : v.prerelease with
    | none =>
      cases hm : w.prerelease with
      | none => rfl
      | some m =>
        rw [hl, hm] at hlabels
        cases hlabels
    | some l =>
      cases hm : w.prerelease with
      | none =>
        rw [hl, hm] at hlabels
        cases hlabels
      | some m =>
        rw [hl, hm] at hlabels
        rcases Label.eq_or_respelled (Label.compareParts_eq_eq_iff.mp hlabels) with heq | hrespelled
        · obtain ⟨parts, _⟩ := l
          obtain ⟨others, _⟩ := m
          cases heq
          rfl
        · exact absurd ⟨h, l, m, hl, hm, hrespelled⟩ hnot

/-- A version can be respelled if its label has a number. -/
theorem exists_respells_iff {v : Version} : (∃ w, v.Respells w) ↔
    ∃ l, v.prerelease = some l ∧ ∃ i ∈ l.parts, i.number?.isSome = true := by
  constructor
  · rintro ⟨w, _, l, m, hl, _, k, i, j, hi, _, _, n, hn, _⟩
    exact ⟨l, hl, i, List.mem_of_getElem? hi, by rw [hn]; rfl⟩
  · rintro ⟨l, hl, i, hi, hnumber⟩
    obtain ⟨n, hn⟩ := Option.isSome_iff_exists.mp hnumber
    obtain ⟨before, after, hparts⟩ := List.append_of_mem hi
    have hpadded := Identifier.respells_padded hn
    let m : Label := ⟨before ++ i.padded :: after, by simp⟩
    have hself (is : List Identifier) : List.Forall₂ (fun i j ↦ i.compare j = .eq) is is :=
      List.forall₂_same.mpr fun i _ ↦ Std.ReflCmp.compare_self
    have hcompare : l.compare m = .eq := by
      rw [Label.compare, hparts, Label.compareParts_eq_eq_iff]
      exact List.rel_append (hself before)
        (.cons (Identifier.compare_eq_iff.mpr (.inr hpadded)) (hself after))
    refine ⟨{ v with prerelease := some m }, ?_, l, m, hl, rfl, before.length, i, i.padded, ?_, ?_,
      hpadded⟩
    · rw [same_iff_parts, hl]
      exact ⟨rfl, rfl, rfl, hcompare⟩
    · rw [hparts, List.getElem?_append_right le_rfl, Nat.sub_self]
      rfl
    · rw [List.getElem?_append_right le_rfl, Nat.sub_self]
      rfl

/-! ## Exact matches -/

theorem matchesExact_iff {v w : Version} :
    v.toPartial.matchesExact w = true ↔ v.same w = true ∧ v.prerelease = w.prerelease := by
  have hself : comparePrerelease w.prerelease w.prerelease = .eq := Std.ReflCmp.compare_self
  rw [same_iff_parts]
  simp only [Partial.matchesExact, toPartial, Bool.and_eq_true, Bool.or_eq_true, beq_iff_eq,
    Option.all_some, Option.isNone_some, Bool.false_eq_true, false_or]
  constructor
  · rintro ⟨⟨⟨hmajor, hminor⟩, hpatch⟩, hlabel⟩
    rw [← hlabel]
    exact ⟨⟨hmajor.symm, hminor.symm, hpatch.symm, hself⟩, rfl⟩
  · rintro ⟨⟨hmajor, hminor, hpatch, _⟩, hlabel⟩
    exact ⟨⟨⟨hmajor.symm, hminor.symm⟩, hpatch.symm⟩, hlabel.symm⟩

/-- The exact match is equal precedence except for respelled labels. -/
theorem matchesExact_eq_same_iff {v w : Version} :
    v.toPartial.matchesExact w = v.same w ↔ ¬v.Respells w := by
  rw [Bool.eq_iff_iff, matchesExact_iff]
  constructor
  · intro h hrespells
    exact (prerelease_eq_iff_of_same hrespells.1).mp (h.mpr hrespells.1).2 hrespells
  · intro hnot
    exact ⟨And.left, fun hsame ↦ ⟨hsame, (prerelease_eq_iff_of_same hsame).mpr hnot⟩⟩

/-! ## Comparators with a version -/

theorem star_not_mem_trim {s : String} {v : Version} (h : parse s = .ok v) :
    '*' ∉ trim s.toList := by
  obtain ⟨p, hspells, _⟩ := Spelling.exists_denotes_of_parse h
  exact fun hmem ↦ Bool.false_ne_true (hspells.isVersionChar_of_mem hmem)

theorem mem_of_mem_dropMark {s : List Char} {c : Char} (h : c ∈ dropMark s) : c ∈ s := by
  unfold dropMark at h
  split at h
  · exact List.mem_cons_of_mem _ h
  · exact h

/-- What is read as a version is read as a partial version with the same numbers and label. -/
theorem Partial.ofChars_trim {s : String} {v : Version} (h : Version.parse s = .ok v) :
    ∃ p, Partial.ofChars (trim s.toList) = .ok p ∧ p.zeroFilled = v.toPartial := by
  have hstar := mt mem_of_mem_dropMark (star_not_mem_trim h)
  obtain ⟨layout, hlayout, h⟩ := exists_of_bind_eq_ok h
  obtain ⟨⟨major, minor, patch⟩, hcore, h⟩ := exists_of_bind_eq_ok h
  cases h
  have hcore (input : List Char) : readCore input layout.core = .ok (major, minor, patch) :=
    readCore_eq_ok_iff.mpr (readCore_eq_ok_iff.mp hcore)
  refine ⟨⟨major, minor, patch, layout.prerelease⟩, ?_, rfl⟩
  simp only [Partial.ofChars, dropWildcard_of_not_mem hstar, hlayout, hcore, bind, Except.bind]
  rfl

theorem trim_ne_nil {s : String} {v : Version} (h : parse s = .ok v) : trim s.toList ≠ [] := by
  intro hnil
  rw [parse, ofChars, hnil] at h
  cases h

/-- The operators of two characters behind which missing numbers are zero. -/
def Operator.Fills (op : Operator) : Prop :=
  op ∈ [exact, notEqual, greaterEq, lessEq]

instance (op : Operator) : Decidable op.Fills :=
  inferInstanceAs (Decidable (op ∈ _))

section

variable {op : Operator}

theorem Operator.Fills.leading? (h : op.Fills) (rest : List Char) :
    Operator.leading? (op.chars ++ rest) = some (op, rest) := by
  simp only [Fills, List.mem_cons, List.not_mem_nil, or_false] at h
  rcases h with rfl | rfl | rfl | rfl <;> rfl

theorem Operator.Fills.ne_star (h : op.Fills) (rest : List Char) : op.chars ++ rest ≠ ['*'] := by
  simp only [Fills, List.mem_cons, List.not_mem_nil, or_false] at h
  rcases h with rfl | rfl | rfl | rfl <;> simp [Operator.chars]

theorem Operator.Fills.settle (h : op.Fills) {written : List Char} (hstar : '*' ∉ written)
    (p : Partial) : Comparator.settle op written p = .ok p.zeroFilled := by
  have hwild := Partial.endsInWildcard_of_not_mem hstar
  simp only [Fills, List.mem_cons, List.not_mem_nil, or_false] at h
  rcases h with rfl | rfl | rfl | rfl <;> simp only [Comparator.settle, hwild] <;> rfl

/-- One of these operators before a version compares with all of its numbers and its label. -/
theorem Comparator.parse_append (op : Operator) (hop : op.Fills) {s : String} {v : Version}
    (h : Version.parse s = .ok v) :
    Comparator.parse (String.ofList op.chars ++ s) = .ok ⟨op, v.toPartial⟩ := by
  obtain ⟨p, hp, hfilled⟩ := Partial.ofChars_trim h
  have hdivided : divided (op.chars ++ trimRight s.toList) = (op, trim s.toList) := by
    rw [divided, hop.leading?]
    exact congrArg (op, ·) (Text.trim_trimRight _)
  rw [parse, String.toList_append, String.toList_ofList, ofChars_eq, Operator.trim_chars_append,
    if_neg (hop.ne_star _), hdivided]
  refine behind_eq_ok_iff.mpr ⟨trim_ne_nil h, rfl, p, hp, ?_⟩
  rw [hop.settle (star_not_mem_trim h), hfilled]

end

/-- The comparator `==` with a version accepts what has its precedence, which `>=` and `<=` accept
together, unless a number in the label is written in another way; `!=` accepts everything else.
Precedence and the exact match agree on all versions if there is no number in the label. -/
theorem exact_agrees_iff (s : String) (v : Version) (h : parse s = .ok v) :
    ∃ equal other atLeast atMost : Comparator,
      Comparator.parse ("==" ++ s) = .ok equal ∧ Comparator.parse ("!=" ++ s) = .ok other ∧
      Comparator.parse (">=" ++ s) = .ok atLeast ∧ Comparator.parse ("<=" ++ s) = .ok atMost ∧
      (∀ w, other.accepts w = !equal.accepts w) ∧
      (∀ w, (atLeast.accepts w && atMost.accepts w) = v.same w) ∧
      (∀ w, equal.accepts w = v.same w ↔ ¬v.Respells w) ∧
      ((∀ w, equal.accepts w = v.same w) ↔
        ¬∃ l, v.prerelease = some l ∧ ∃ i ∈ l.parts, i.number?.isSome = true) := by
  refine ⟨_, _, _, _, Comparator.parse_append .exact (by decide) h,
    Comparator.parse_append .notEqual (by decide) h,
    Comparator.parse_append .greaterEq (by decide) h,
    Comparator.parse_append .lessEq (by decide) h, fun w ↦ rfl, fun w ↦ ?_,
    fun w ↦ matchesExact_eq_same_iff, ?_⟩
  · rw [same_comm]
    change (w.precedence v != .lt && w.precedence v != .gt) = (w.precedence v == .eq)
    cases w.precedence v <;> rfl
  · rw [← exists_respells_iff, not_exists]
    exact forall_congr' fun w ↦ matchesExact_eq_same_iff

/-- Numbers in the core may be written in any way, and `rc-1` is no number. -/
theorem exact_agrees_iff_candidate : ∃ v equal, parse " v01.0-rc-1+b" = .ok v ∧
    Comparator.parse "== v01.0-rc-1+b" = .ok equal ∧ ∀ w, equal.accepts w = v.same w := by
  let rc : Label := ⟨[⟨"rc-1".toList, by decide, by decide⟩], by decide⟩
  let v : Version := ⟨1, 0, 0, some rc, some ⟨[⟨"b".toList, by decide, by decide⟩], by decide⟩⟩
  have h : parse " v01.0-rc-1+b" = .ok v := rfl
  obtain ⟨equal, _, _, _, hequal, _, _, _, _, _, _, hagrees⟩ := exact_agrees_iff _ v h
  refine ⟨v, equal, h, hequal, hagrees.mpr ?_⟩
  rintro ⟨l, hl, i, hi, hnumber⟩
  have hnone : ∀ i ∈ rc.parts, i.number? = none := by decide
  cases hl
  rw [hnone i hi] at hnumber
  cases hnumber

/-- Neither of two versions comes before the other, and `==` with one does not accept the other. -/
theorem exact_refuses_same : ∃ v w equal atLeast atMost,
    parse "1.0.0-01" = .ok v ∧ parse "1.0.0-1" = .ok w ∧
      Comparator.parse "==1.0.0-01" = .ok equal ∧ Comparator.parse ">=1.0.0-01" = .ok atLeast ∧
      Comparator.parse "<=1.0.0-01" = .ok atMost ∧ w.same v = true ∧ atLeast.accepts w = true ∧
      atMost.accepts w = true ∧ equal.accepts w = false := by
  let v : Version := ⟨1, 0, 0, some ⟨[⟨"01".toList, by decide, by decide⟩], by decide⟩, none⟩
  let w : Version := ⟨1, 0, 0, some ⟨[⟨"1".toList, by decide, by decide⟩], by decide⟩, none⟩
  exact ⟨v, w, ⟨.exact, v.toPartial⟩, ⟨.greaterEq, v.toPartial⟩, ⟨.lessEq, v.toPartial⟩,
    rfl, rfl, rfl, rfl, rfl, by decide⟩

end SheetPackages.Version
