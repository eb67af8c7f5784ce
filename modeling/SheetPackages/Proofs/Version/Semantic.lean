import SheetPackages.Proofs.Decimal.Digits
import SheetPackages.Proofs.Version.Precedence

/-!
# Semantic precedence

Semantic versioning orders identifiers of digits by their values, however long they are. Precedence
reads identifiers as machine words and takes those that do not fit for texts, so that `1.0.0-9` with
twenty nines comes after `1.0.0-1` with twenty zeros. Here the two orders are compared: they differ
on exactly the versions with the same numbers whose labels are decided at such an identifier, with
the texts in another order than the values.
-/

namespace SheetPackages.Version

open Std (LawfulEqCmp ReflCmp)

/-! ## The semantic order -/

def Identifier.isNumeric (i : Identifier) : Bool :=
  i.chars.all Decimal.isDigit

/-- Identifiers of digits by value and before all others, the others as text. -/
def Identifier.semantic (i j : Identifier) : Ordering :=
  match i.isNumeric, j.isNumeric with
  | true, true => Ord.compare (Decimal.value i.chars) (Decimal.value j.chars)
  | true, false => .lt
  | false, true => .gt
  | false, false => List.compareLex (compareOn Char.toNat) i.chars j.chars

/-- A version without a label comes last, labels go from left to right, beginnings first. -/
def semanticPrerelease : Option Label → Option Label → Ordering
  | none, none => .eq
  | some _, none => .lt
  | none, some _ => .gt
  | some l, some m => List.compareLex Identifier.semantic l.parts m.parts

/-- The order of semantic versioning; build labels do not take part. -/
def semantic : Version → Version → Ordering :=
  compareLex
    (compareLex (compareLex (compareOn fun v : Version ↦ v.major.toNat)
      (compareOn fun v ↦ v.minor.toNat)) (compareOn fun v ↦ v.patch.toNat))
    fun v w ↦ semanticPrerelease v.prerelease w.prerelease

/-! ## Identifiers -/

namespace Identifier

variable {i j : Identifier}

/-- A number that no machine word holds. -/
def IsLong (i : Identifier) : Prop :=
  i.isNumeric = true ∧ UInt64.size ≤ Decimal.value i.chars

instance (i : Identifier) : Decidable i.IsLong :=
  inferInstanceAs (Decidable (_ ∧ _))

theorem number?_eq_some_iff {n : UInt64} :
    i.number? = some n ↔ i.isNumeric = true ∧ Decimal.value i.chars = n.toNat :=
  Decimal.readWord?_eq_some_iff.trans (and_iff_right i.nonempty)

theorem number?_eq_none_iff : i.number? = none ↔ i.isNumeric = false ∨ i.IsLong := by
  constructor
  · intro h
    rcases Bool.eq_false_or_eq_true i.isNumeric with hnumeric | hnumeric
    · refine .inr ⟨hnumeric, Nat.le_of_not_lt fun hfits ↦ ?_⟩
      have hword := number?_eq_some_iff.mpr ⟨hnumeric, (UInt64.toNat_ofNat_of_lt' hfits).symm⟩
      exact absurd (h.symm.trans hword) (nomatch ·)
    · exact .inl hnumeric
  · intro h
    cases hword : i.number? with
    | none => rfl
    | some n =>
      obtain ⟨hnumeric, hvalue⟩ := number?_eq_some_iff.mp hword
      rcases h with h | ⟨_, hlong⟩
      · exact absurd (h.symm.trans hnumeric) Bool.false_ne_true
      · exact absurd (hvalue ▸ n.toNat_lt) (Nat.not_lt.mpr hlong)

/-- One of the identifiers is a number, but both of them are compared as texts. -/
def Confuses (i j : Identifier) : Prop :=
  i.number? = none ∧ j.number? = none ∧ (i.IsLong ∨ j.IsLong)

theorem compare_of_confuses (h : i.Confuses j) : i.compare j = compareChars i.chars j.chars := by
  rw [compare, h.1, h.2.1]

theorem compare_eq_semantic (h : ¬i.Confuses j) : i.compare j = i.semantic j := by
  unfold compare semantic
  cases hi : i.number? with
  | some m =>
    obtain ⟨hinumeric, hivalue⟩ := number?_eq_some_iff.mp hi
    cases hj : j.number? with
    | some n =>
      obtain ⟨hjnumeric, hjvalue⟩ := number?_eq_some_iff.mp hj
      simp only [hinumeric, hjnumeric, hivalue, hjvalue]
    | none =>
      rcases number?_eq_none_iff.mp hj with hjnumeric | ⟨hjnumeric, hlong⟩
      · simp only [hinumeric, hjnumeric]
      · -- The word is below the number that is none.
        have hlt : Decimal.value i.chars < Decimal.value j.chars :=
          Nat.lt_of_lt_of_le (hivalue ▸ m.toNat_lt) hlong
        simp only [hinumeric, hjnumeric, Nat.compare_eq_lt.mpr hlt]
  | none =>
    cases hj : j.number? with
    | some n =>
      obtain ⟨hjnumeric, hjvalue⟩ := number?_eq_some_iff.mp hj
      rcases number?_eq_none_iff.mp hi with hinumeric | ⟨hinumeric, hlong⟩
      · simp only [hinumeric, hjnumeric]
      · have hlt : Decimal.value j.chars < Decimal.value i.chars :=
          Nat.lt_of_lt_of_le (hjvalue ▸ n.toNat_lt) hlong
        simp only [hinumeric, hjnumeric, Nat.compare_eq_gt.mpr hlt]
    | none =>
      have hinumeric := (number?_eq_none_iff.mp hi).resolve_right fun h' ↦ h ⟨hi, hj, .inl h'⟩
      have hjnumeric := (number?_eq_none_iff.mp hj).resolve_right fun h' ↦ h ⟨hi, hj, .inr h'⟩
      simp only [hinumeric, hjnumeric, compareChars_eq_compareLex]

instance : LawfulEqCmp (compareOn Char.toNat) where
  compare_self := ReflCmp.compare_self
  eq_of_compare h := Char.toNat_inj.mp (Nat.compare_eq_eq.mp h)

theorem compareChars_eq_iff : compareChars i.chars j.chars = .eq ↔ i = j := by
  rw [compareChars_eq_compareLex, LawfulEqCmp.compare_eq_iff_eq, Identifier.mk.injEq]

@[simp]
theorem semantic_self (i : Identifier) : i.semantic i = .eq := by
  unfold semantic
  cases i.isNumeric
  · exact ReflCmp.compare_self
  · exact Nat.compare_eq_eq.mpr rfl

theorem semantic_of_compare_eq (h : i.compare j = .eq) : i.semantic j = .eq := by
  by_cases hconfuses : i.Confuses j
  · rw [compare_of_confuses hconfuses, compareChars_eq_iff] at h
    rw [h, semantic_self]
  · rw [← compare_eq_semantic hconfuses, h]

end Identifier

/-! ## Labels -/

namespace Label

/-- The identifiers that decide between two labels are compared as texts although one of them is a
number, and that is not the order in which the values and what follows put the labels. -/
inductive Misorders : List Identifier → List Identifier → Prop
  | here {i j is js} (hconfuses : i.Confuses j) (hne : i ≠ j)
    (horder : Identifier.compareChars i.chars j.chars ≠
      (i.semantic j).then (List.compareLex Identifier.semantic is js)) :
    Misorders (i :: is) (j :: js)
  | behind {i j is js} (heq : i.compare j = .eq) (h : Misorders is js) :
    Misorders (i :: is) (j :: js)

theorem misorders_cons_iff_of_eq {i j : Identifier} {is js : List Identifier}
    (heq : i.compare j = .eq) : Misorders (i :: is) (j :: js) ↔ Misorders is js := by
  constructor
  · rintro (⟨hconfuses, hne, _⟩ | ⟨_, h⟩)
    · rw [Identifier.compare_of_confuses hconfuses, Identifier.compareChars_eq_iff] at heq
      exact absurd heq hne
    · exact h
  · exact .behind heq

theorem misorders_cons_iff_of_ne {i j : Identifier} {is js : List Identifier}
    (hne : i.compare j ≠ .eq) :
    Misorders (i :: is) (j :: js) ↔ i.Confuses j ∧
      i.compare j ≠ (i.semantic j).then (List.compareLex Identifier.semantic is js) := by
  constructor
  · rintro (⟨hconfuses, _, horder⟩ | ⟨heq, _⟩)
    · exact ⟨hconfuses, Identifier.compare_of_confuses hconfuses ▸ horder⟩
    · exact absurd heq hne
  · rintro ⟨hconfuses, horder⟩
    rw [Identifier.compare_of_confuses hconfuses] at hne horder
    exact .here hconfuses (mt Identifier.compareChars_eq_iff.mpr hne) horder

theorem compareParts_eq_iff (is js : List Identifier) :
    compareParts is js = List.compareLex Identifier.semantic is js ↔ ¬Misorders is js := by
  induction is generalizing js with
  | nil =>
    have hnone : ¬Misorders [] js := fun h ↦ nomatch h
    cases js <;> exact iff_of_true rfl hnone
  | cons i rest ih =>
    cases js with
    | nil => exact iff_of_true rfl fun h ↦ nomatch h
    | cons j more =>
      rw [compareParts, List.compareLex_cons_cons]
      by_cases heq : i.compare j = .eq
      · rw [heq, Identifier.semantic_of_compare_eq heq, misorders_cons_iff_of_eq heq]
        exact ih more
      · have hthen : (i.compare j).then (compareParts rest more) = i.compare j := by
          cases h : i.compare j <;> first | rfl | exact absurd h heq
        rw [hthen, misorders_cons_iff_of_ne heq, not_and, Classical.not_not]
        refine ⟨fun h _ ↦ h, fun h ↦ ?_⟩
        by_cases hconfuses : i.Confuses j
        · exact h hconfuses
        · rw [← Identifier.compare_eq_semantic hconfuses]
          cases h : i.compare j <;> first | rfl | exact absurd h heq

theorem not_misorders {is js : List Identifier} (his : ∀ i ∈ is, ¬i.IsLong)
    (hjs : ∀ j ∈ js, ¬j.IsLong) : ¬Misorders is js := by
  intro h
  induction h with
  | here hconfuses _ _ =>
    exact hconfuses.2.2.elim (his _ List.mem_cons_self) (hjs _ List.mem_cons_self)
  | behind _ _ ih =>
    exact ih (fun i hi ↦ his i (List.mem_cons_of_mem _ hi)) fun j hj ↦
      hjs j (List.mem_cons_of_mem _ hj)

end Label

/-! ## Versions -/

/-- Versions with the same numbers whose labels are decided by a number taken for a text. -/
def Misorders (v w : Version) : Prop :=
  v.compareNumbers w = .eq ∧ ∃ l m, v.prerelease = some l ∧ w.prerelease = some m ∧
    Label.Misorders l.parts m.parts

theorem comparePrerelease_eq_iff (label label' : Option Label) :
    comparePrerelease label label' = semanticPrerelease label label' ↔
      ¬∃ l m, label = some l ∧ label' = some m ∧ Label.Misorders l.parts m.parts := by
  cases label with
  | none => cases label' <;> simp [comparePrerelease, semanticPrerelease]
  | some l =>
    cases label' with
    | none => simp [comparePrerelease, semanticPrerelease]
    | some m => simpa [comparePrerelease, semanticPrerelease, Label.compare] using
        Label.compareParts_eq_iff l.parts m.parts

/-- Precedence is the order of semantic versioning except on labels that are decided by a number
taken for a text. -/
theorem precedence_eq_semantic_iff (v w : Version) :
    v.precedence w = v.semantic w ↔ ¬v.Misorders w := by
  have hsemantic : v.semantic w =
      (v.compareNumbers w).then (semanticPrerelease v.prerelease w.prerelease) := rfl
  rw [hsemantic, precedence, Misorders]
  cases h : v.compareNumbers w with
  | eq =>
    rw [Ordering.eq_then, Ordering.eq_then, and_iff_right rfl]
    exact comparePrerelease_eq_iff v.prerelease w.prerelease
  | lt => exact iff_of_true rfl fun h' ↦ nomatch h'.1
  | gt => exact iff_of_true rfl fun h' ↦ nomatch h'.1

theorem precedence_eq_semantic {v w : Version}
    (hv : ∀ l ∈ v.prerelease, ∀ i ∈ l.parts, ¬i.IsLong)
    (hw : ∀ m ∈ w.prerelease, ∀ j ∈ m.parts, ¬j.IsLong) : v.precedence w = v.semantic w := by
  have hlabels : comparePrerelease v.prerelease w.prerelease =
      semanticPrerelease v.prerelease w.prerelease :=
    (comparePrerelease_eq_iff _ _).mpr fun ⟨l, m, hl, hm, h⟩ ↦
      Label.not_misorders (hv l hl) (hw m hm) h
  exact congrArg (v.compareNumbers w).then hlabels

/-- A one with twenty zeros is placed before twenty nines. -/
theorem precedence_ne_semantic_long :
    ∃ v w, parse "1.0.0-100000000000000000000" = .ok v ∧
      parse "1.0.0-99999999999999999999" = .ok w ∧
      v.precedence w = .lt ∧ v.semantic w = .gt :=
  ⟨⟨1, 0, 0, some ⟨[⟨"100000000000000000000".toList, by decide, by decide⟩], by decide⟩, none⟩,
    ⟨1, 0, 0, some ⟨[⟨"99999999999999999999".toList, by decide, by decide⟩], by decide⟩, none⟩,
    rfl, rfl, by decide, by decide⟩

end SheetPackages.Version
