import Mathlib.Data.List.Forall2
import Mathlib.Tactic.ByContra
import SheetPackages.Proofs.Version.Pools

/-!
# Precedence as a preorder

Any two versions can be compared, comparisons can be chained, and versions of the same precedence
compare alike with every other version. So pools of versions are well defined: they hold every
precedence of the versions given once, and which versions of one precedence are given, and in which
order, changes nothing but the build labels and the spelling of the numbers in prerelease labels.
-/

namespace SheetPackages.Version

open Std (OrientedCmp TransCmp)

theorem le_iff_isLE {v w : Version} : v.le w = true ↔ (v.precedence w).isLE = true := by
  unfold le
  cases v.precedence w <;> decide

theorem le_total (v w : Version) : v.le w = true ∨ w.le v = true := by
  rw [le_iff_isLE, le_iff_isLE, ← precedence_swap v w]
  cases v.precedence w <;> simp

theorem le_trans {u v w : Version} (huv : u.le v = true) (hvw : v.le w = true) :
    u.le w = true :=
  le_iff_isLE.mpr (TransCmp.isLE_trans (le_iff_isLE.mp huv) (le_iff_isLE.mp hvw))

theorem precedence_congr {v w : Version} (h : v.same w = true) (u : Version) :
    v.precedence u = w.precedence u ∧ u.precedence v = u.precedence w :=
  ⟨TransCmp.congr_left (same_iff.mp h), TransCmp.congr_right (same_iff.mp h)⟩

/-- Versions of which neither is older have the same precedence. -/
theorem same_of_not_lt {v w : Version} (hvw : v.precedence w ≠ .lt)
    (hwv : w.precedence v ≠ .lt) : v.same w = true := by
  rw [← precedence_swap v w] at hwv
  rw [same_iff]
  cases h : v.precedence w with
  | lt => exact absurd h hvw
  | eq => rfl
  | gt => exact absurd (congrArg Ordering.swap h) hwv

/-! ## Pools -/

/-- Some version of the list has the precedence of `v`. -/
def Occurs (v : Version) (versions : List Version) : Prop :=
  ∃ w ∈ versions, w.same v = true

instance (v : Version) (versions : List Version) : Decidable (Occurs v versions) :=
  inferInstanceAs (Decidable (∃ w ∈ versions, w.same v = true))

theorem Occurs.of_mem {v : Version} {versions : List Version} (h : v ∈ versions) :
    Occurs v versions :=
  ⟨v, h, same_self v⟩

theorem Occurs.congr {u v : Version} {versions : List Version} (h : Occurs u versions)
    (hsame : u.same v = true) : Occurs v versions := by
  obtain ⟨w, hw, hwu⟩ := h
  exact ⟨w, hw, same_trans hwu hsame⟩

/-- The same precedences occur in lists of which each has all precedences of the other. -/
theorem occurs_iff_of_forall_mem {versions others : List Version}
    (h : ∀ v ∈ versions, Occurs v others) (hothers : ∀ v ∈ others, Occurs v versions)
    (v : Version) : Occurs v versions ↔ Occurs v others :=
  ⟨fun ⟨w, hw, hsame⟩ ↦ (h w hw).congr hsame, fun ⟨w, hw, hsame⟩ ↦ (hothers w hw).congr hsame⟩

theorem Occurs.of_cons {u v : Version} {rest : List Version} (h : Occurs v (u :: rest))
    (hdiffer : u.same v = false) : Occurs v rest := by
  obtain ⟨w, hw, hsame⟩ := h
  rcases List.mem_cons.mp hw with rfl | hw
  · exact absurd (hdiffer.symm.trans hsame) Bool.false_ne_true
  · exact ⟨w, hw, hsame⟩

/-- A version in front of an ascending list comes before whatever occurs in the list. -/
theorem Occurs.lt {u v : Version} {rest : List Version} (h : Occurs v rest)
    (hu : ∀ w ∈ rest, u.precedence w = .lt) : u.precedence v = .lt := by
  obtain ⟨w, hw, hsame⟩ := h
  exact TransCmp.lt_of_lt_of_eq (hu w hw) (same_iff.mp hsame)

namespace Pool

theorem occurs_ofList_iff {v : Version} {versions : List Version} :
    Occurs v (ofList versions).ascending ↔ Occurs v versions := by
  constructor
  · rintro ⟨w, hw, hsame⟩
    exact ⟨w, mem_of_mem_ofList hw, hsame⟩
  · rintro ⟨w, hw, hsame⟩
    exact Occurs.congr (exists_same_ofList hw) hsame

/-- Ascending lists in which the same precedences occur have them at the same places. -/
theorem forall₂_same_of_occurs_iff {versions others : List Version}
    (hversions : versions.Pairwise fun v w ↦ v.precedence w = .lt)
    (hothers : others.Pairwise fun v w ↦ v.precedence w = .lt)
    (h : ∀ v, Occurs v versions ↔ Occurs v others) :
    List.Forall₂ (fun v w ↦ v.same w = true) versions others := by
  induction versions generalizing others with
  | nil =>
    cases others with
    | nil => exact .nil
    | cons w rest =>
      obtain ⟨_, hmem, _⟩ := (h w).mpr (.of_mem List.mem_cons_self)
      cases hmem
  | cons v rest ih =>
    cases others with
    | nil =>
      obtain ⟨_, hmem, _⟩ := (h v).mp (.of_mem List.mem_cons_self)
      cases hmem
    | cons w more =>
      obtain ⟨hv, hrest⟩ := List.pairwise_cons.mp hversions
      obtain ⟨hw, hmore⟩ := List.pairwise_cons.mp hothers
      -- Were the first versions different, each of them would occur behind the other one.
      have hsame : v.same w = true := by
        by_contra hdiffer
        have hvw : v.same w = false := Bool.eq_false_iff.mpr hdiffer
        have hwv : w.same v = false := (same_comm w v).trans hvw
        have hlt := (((h w).mpr (.of_mem List.mem_cons_self)).of_cons hvw).lt hv
        have hgt := (((h v).mp (.of_mem List.mem_cons_self)).of_cons hwv).lt hw
        rw [← precedence_swap v w, hlt] at hgt
        cases hgt
      refine .cons hsame (ih hrest hmore fun u ↦ ⟨fun hu ↦ ?_, fun hu ↦ ?_⟩)
      · have hwu : w.precedence u = .lt :=
          TransCmp.lt_of_eq_of_lt (same_iff.mp ((same_comm w v).trans hsame)) (hu.lt hv)
        obtain ⟨x, hx, hxu⟩ := hu
        exact ((h u).mp ⟨x, List.mem_cons_of_mem v hx, hxu⟩).of_cons (not_same_of_lt hwu)
      · have hvu : v.precedence u = .lt :=
          TransCmp.lt_of_eq_of_lt (same_iff.mp hsame) (hu.lt hw)
        obtain ⟨x, hx, hxu⟩ := hu
        exact ((h u).mpr ⟨x, List.mem_cons_of_mem w hx, hxu⟩).of_cons (not_same_of_lt hvu)

end Pool

/-- Precedence is a total preorder on all versions that can be read, its equivalence is `same`, and
a pool depends on the precedences of the versions given only. -/
theorem precedence_totalPreorder (a b c : Version) :
    a.precedence a = .eq ∧ a.precedence b = (b.precedence a).swap ∧
      (a.le b = true ∨ b.le a = true) ∧
      (a.le b = true → b.le c = true → a.le c = true) ∧
      (a.same b = true ↔ a.precedence b = .eq) ∧
      (a.same b = true → a.precedence c = b.precedence c ∧ c.precedence a = c.precedence b) ∧
      ∀ versions others : List Version,
        ((Pool.ofList versions).ascending.Pairwise fun v w ↦ v.precedence w = .lt) ∧
        (∀ v, Occurs v (Pool.ofList versions).ascending ↔ Occurs v versions) ∧
        ((∀ v, Occurs v versions ↔ Occurs v others) →
          List.Forall₂ (fun v w ↦ v.same w = true) (Pool.ofList versions).ascending
            (Pool.ofList others).ascending) := by
  refine ⟨precedence_self a, (precedence_swap b a).symm, le_total a b, le_trans, same_iff,
    fun h ↦ precedence_congr h c, fun versions others ↦ ?_⟩
  refine ⟨Pool.pairwise_ofList versions, fun v ↦ Pool.occurs_ofList_iff, fun h ↦ ?_⟩
  refine Pool.forall₂_same_of_occurs_iff (Pool.pairwise_ofList versions)
    (Pool.pairwise_ofList others) fun v ↦ ?_
  rw [Pool.occurs_ofList_iff, Pool.occurs_ofList_iff]
  exact h v

/-- The version `1.0.0` with a prerelease label of one identifier. -/
def preview (i : Identifier) : Version where
  major := 1
  minor := 0
  patch := 0
  prerelease := some ⟨[i], List.cons_ne_nil i []⟩

/-- Leading zeros, a number that is too long for a word, and a text. -/
theorem precedence_totalPreorder_mixed :
    let a := preview ⟨"007".toList, by decide, by decide⟩
    let b := preview ⟨"7".toList, by decide, by decide⟩
    let c := preview ⟨"18446744073709551616".toList, by decide, by decide⟩
    let d := preview ⟨"rc".toList, by decide, by decide⟩
    a.same b = true ∧ a.precedence c = b.precedence c ∧ b.le c = true ∧ c.le d = true ∧
      b.le d = true ∧ List.Forall₂ (fun v w ↦ v.same w = true)
        (Pool.ofList [d, a, c]).ascending (Pool.ofList [c, b, a, d]).ascending := by
  intro a b c d
  have hab : a.same b = true := by decide
  have hbc : b.le c = true := by decide
  have hcd : c.le d = true := by decide
  have hoccurs : ∀ v, Occurs v [d, a, c] ↔ Occurs v [c, b, a, d] :=
    occurs_iff_of_forall_mem (by decide) (by decide)
  obtain ⟨_, _, _, htrans, _, _, _⟩ := precedence_totalPreorder b c d
  obtain ⟨_, _, _, _, _, hcongr, hpools⟩ := precedence_totalPreorder a b c
  exact ⟨hab, (hcongr hab).1, hbc, hcd, htrans hbc hcd,
    (hpools [d, a, c] [c, b, a, d]).2.2 hoccurs⟩

end SheetPackages.Version
