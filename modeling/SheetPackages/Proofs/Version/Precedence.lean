import SheetPackages.Version.Basic

/-!
# Precedence of versions

Precedence is transitive, and comparing two versions the other way round gives the opposite answer.
It is put together from comparisons of which both hold, so each of them is shown to be one.
-/

namespace SheetPackages.Version

open Std (OrientedCmp OrientedOrd TransCmp TransOrd)

/-- Comparing what a function reads of two values. -/
theorem transCmp_on {α β : Type} {compare : β → β → Ordering} (h : TransCmp compare)
    (f : α → β) : TransCmp fun a b ↦ compare (f a) (f b) where
  eq_swap := h.eq_swap
  isLE_trans hab hbc := h.isLE_trans hab hbc

/-! ## Labels -/

theorem Identifier.compareChars_eq_compareLex :
    compareChars = List.compareLex (compareOn Char.toNat) := by
  funext s t
  induction s generalizing t with
  | nil => cases t <;> rfl
  | cons c rest ih =>
    cases t with
    | nil => rfl
    | cons d more =>
      rw [compareChars, ih, List.compareLex_cons_cons]
      rfl

instance : TransCmp Identifier.compareChars := by
  rw [Identifier.compareChars_eq_compareLex]
  infer_instance

instance : TransCmp Identifier.compare := by
  have htexts : TransCmp Identifier.compareChars := inferInstance
  refine @TransCmp.mk _ _ ⟨fun {i j} ↦ ?_⟩ fun {i j k} hij hjk ↦ ?_
  · unfold Identifier.compare
    cases i.number? <;> cases j.number?
    case none.none => exact htexts.eq_swap
    case some.some => exact OrientedOrd.eq_swap
    all_goals rfl
  · -- Numbers come before texts, so a chain stays among one of them or crosses over once.
    unfold Identifier.compare at *
    cases hi : i.number? <;> cases hj : j.number? <;> cases hk : k.number? <;>
      simp only [hi, hj, hk] at *
    case none.none.none => exact htexts.isLE_trans hij hjk
    case some.some.some => exact TransOrd.isLE_trans hij hjk
    all_goals first | contradiction | rfl

theorem Label.compareParts_eq_compareLex :
    compareParts = List.compareLex Identifier.compare := by
  funext is js
  induction is generalizing js with
  | nil => cases js <;> rfl
  | cons i rest ih =>
    cases js with
    | nil => rfl
    | cons j more => rw [compareParts, ih, List.compareLex_cons_cons]

instance : TransCmp Label.compare := by
  have hparts : TransCmp Label.compareParts := by
    rw [Label.compareParts_eq_compareLex]
    infer_instance
  exact transCmp_on hparts Label.parts

instance : TransCmp comparePrerelease := by
  have hlabels : TransCmp Label.compare := inferInstance
  refine @TransCmp.mk _ _ ⟨fun {l m} ↦ ?_⟩ fun {l m n} hlm hmn ↦ ?_
  · cases l <;> cases m
    case some.some => exact hlabels.eq_swap
    all_goals rfl
  · cases l <;> cases m <;> cases n
    case some.some.some => exact hlabels.isLE_trans hlm hmn
    all_goals first | contradiction | rfl

/-! ## Versions -/

instance : TransCmp compareNumbers :=
  inferInstanceAs <| TransCmp <| compareLex
    (compareLex (compareOn fun v : Version ↦ v.major.toNat) (compareOn fun v ↦ v.minor.toNat))
    (compareOn fun v ↦ v.patch.toNat)

instance : TransCmp precedence :=
  have : TransCmp fun v w : Version ↦ comparePrerelease v.prerelease w.prerelease :=
    transCmp_on inferInstance prerelease
  inferInstanceAs <| TransCmp <| compareLex compareNumbers fun v w ↦
    comparePrerelease v.prerelease w.prerelease

@[simp]
theorem precedence_self (v : Version) : v.precedence v = .eq :=
  Std.ReflCmp.compare_self

theorem precedence_swap (v w : Version) : (v.precedence w).swap = w.precedence v :=
  OrientedCmp.eq_swap.symm

theorem same_iff {v w : Version} : v.same w = true ↔ v.precedence w = .eq :=
  beq_iff_eq

@[simp]
theorem same_self (v : Version) : v.same v = true :=
  same_iff.mpr (precedence_self v)

theorem same_trans {u v w : Version} (huv : u.same v = true) (hvw : v.same w = true) :
    u.same w = true :=
  same_iff.mpr (TransCmp.eq_trans (same_iff.mp huv) (same_iff.mp hvw))

theorem same_comm (v w : Version) : v.same w = w.same v := by
  unfold same
  rw [← precedence_swap v w]
  cases v.precedence w <;> rfl

/-- Versions have the same precedence if they have the same numbers and equally placed labels. -/
theorem same_iff_parts {v w : Version} : v.same w = true ↔
    v.major = w.major ∧ v.minor = w.minor ∧ v.patch = w.patch ∧
      comparePrerelease v.prerelease w.prerelease = .eq := by
  have hparts : v.precedence w = (((compare v.major.toNat w.major.toNat).then
      (compare v.minor.toNat w.minor.toNat)).then (compare v.patch.toNat w.patch.toNat)).then
        (comparePrerelease v.prerelease w.prerelease) := rfl
  rw [same_iff, hparts]
  simp only [Ordering.then_eq_eq, Nat.compare_eq_eq, UInt64.toNat_inj, and_assoc]

/-- A version of the same precedence as a stable one differs from it in the build label only. -/
theorem eq_of_same_of_stable {v w : Version} (h : v.same w = true)
    (hstable : v.isPrerelease = false) : w = { v with build := w.build } := by
  obtain ⟨hmajor, hminor, hpatch, hlabels⟩ := same_iff_parts.mp h
  have hlabel : v.prerelease = none :=
    Option.not_isSome_iff_eq_none.mp (ne_true_of_eq_false hstable)
  rw [hlabel] at hlabels
  have hlabel' : w.prerelease = none := by
    cases hw : w.prerelease with
    | none => rfl
    | some label =>
      rw [hw] at hlabels
      cases hlabels
  obtain ⟨major, minor, patch, prerelease, build⟩ := w
  rw [hmajor, hminor, hpatch, hlabel, ← hlabel']

end SheetPackages.Version
