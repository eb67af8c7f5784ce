import SheetPackages.Proofs.Results
import SheetPackages.Proofs.Text.Trimming
import SheetPackages.Version.Range

/-!
# Clauses of ranges

The comparators of a range depend only on what stands between its commas, without blanks around it
and without blank clauses. The texts in faults, which repeat the whole range, are not described.
-/

namespace SheetPackages.Version.Range

open Text (cleaned pieces trim words)

variable {input : List Char} {comparators : List Comparator}

/-- What is read of a clause does not depend on the range that faults would repeat. -/
theorem clause_eq_ok_of_input (other : List Char) {pending : Option (List Char)}
    {ws : List (List Char)} (h : clause input pending ws = .ok comparators) :
    clause other pending ws = .ok comparators := by
  induction ws generalizing pending comparators with
  | nil =>
    cases pending with
    | none => exact h
    | some op => cases h
  | cons word rest ih =>
    rw [clause] at h ⊢
    by_cases hop : word.all isOperatorChar = true
    · rw [if_pos hop] at h ⊢
      exact ih h
    · rw [if_neg hop] at h ⊢
      obtain ⟨comparator, hcomparator, h⟩ := exists_of_bind_eq_ok h
      obtain ⟨more, hmore, h⟩ := exists_of_bind_eq_ok h
      rw [hcomparator, ← h]
      change (do let more ← clause other none rest; return comparator :: more) = _
      rw [ih hmore]
      rfl

theorem clause_eq_ok_iff (input other : List Char) {pending : Option (List Char)}
    {ws : List (List Char)} :
    clause input pending ws = .ok comparators ↔ clause other pending ws = .ok comparators :=
  ⟨clause_eq_ok_of_input other, clause_eq_ok_of_input input⟩

theorem clauses_cons_eq_ok_iff {piece : List Char} {more : List (List Char)} :
    clauses input (piece :: more) = .ok comparators ↔
      ∃ here rest, clause input none (words piece) = .ok here ∧
        clauses input more = .ok rest ∧ here ++ rest = comparators := by
  rw [clauses]
  constructor
  · intro h
    obtain ⟨here, hhere, h⟩ := exists_of_bind_eq_ok h
    obtain ⟨rest, hrest, h⟩ := exists_of_bind_eq_ok h
    exact ⟨here, rest, hhere, hrest, Except.ok.inj h⟩
  · rintro ⟨here, rest, hhere, hrest, rfl⟩
    rw [hhere]
    change (do let rest ← clauses input more; return here ++ rest) = _
    rw [hrest]
    rfl

theorem clauses_cleaned_eq_ok_iff (input other : List Char) {clausePieces : List (List Char)} :
    clauses other (cleaned clausePieces) = .ok comparators ↔
      clauses input clausePieces = .ok comparators := by
  induction clausePieces generalizing comparators with
  | nil => exact Iff.rfl
  | cons piece more ih =>
    rw [Text.cleaned_cons, clauses_cons_eq_ok_iff]
    by_cases hblank : trim piece = []
    · have hwords : words piece = [] := by
        rw [← Text.words_trim, hblank]
        exact Text.words_of_trimLeft_eq_nil rfl
      have hnone : clause input none [] = .ok [] := rfl
      rw [if_pos hblank, ih, hwords, hnone]
      simp
    · rw [if_neg hblank, clauses_cons_eq_ok_iff, Text.words_trim]
      simp only [clause_eq_ok_iff other input, ih]

/-- Ranges with the same clauses have the same comparators. -/
theorem ofChars_eq_ok_iff_of_cleaned {s t : List Char}
    (h : cleaned (pieces ',' s) = cleaned (pieces ',' t)) {r : Range} :
    ofChars s = .ok r ↔ ofChars t = .ok r := by
  have hclauses (u : List Char) :
      ofChars u = .ok r ↔ clauses [] (cleaned (pieces ',' u)) = .ok r.comparators := by
    rw [clauses_cleaned_eq_ok_iff u, ofChars]
    cases clauses u (pieces ',' u) with
    | error flaw => exact iff_of_false nofun nofun
    | ok cs =>
      constructor
      · intro h
        cases h
        rfl
      · intro h
        cases h
        rfl
  rw [hclauses, hclauses, h]

end SheetPackages.Version.Range
