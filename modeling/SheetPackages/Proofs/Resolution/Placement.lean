import SheetPackages.Proofs.Resolution.Transparency
import SheetPackages.Proofs.Version.Exactness

/-!
# Places in tables

A table places a version by its numbers and by the text of its prerelease label. Versions of the
same precedence are one key of a table, so they should have one place; but precedence looks at the
values of the numbers in the label. So `1.0.0-1` and `1.0.0-01` are one key with two places, and
what is kept under one of them is not found under the other. Only numbers that are written in two
ways come between precedence and place: if none has zeros in front, the two agree.
-/

namespace SheetPackages

namespace Version

variable {v w : Version}

/-! ## Places -/

theorem Label.text_inj {l m : Label} : l.text = m.text ↔ l = m := by
  constructor
  · intro h
    have hchars : l.chars = m.chars := by
      rw [← String.toList_ofList (l := l.chars), ← String.toList_ofList (l := m.chars)]
      exact congrArg String.toList h
    rw [← Option.some_inj, ← ofChars?_chars l, hchars, ofChars?_chars]
  · rintro rfl
    rfl

theorem tableKey_eq_iff_parts : v.tableKey = w.tableKey ↔
    v.major = w.major ∧ v.minor = w.minor ∧ v.patch = w.patch ∧ v.prerelease = w.prerelease := by
  have hlabels : v.prerelease.map Label.text = w.prerelease.map Label.text ↔
      v.prerelease = w.prerelease :=
    Option.map_inj_right fun _ _ ↦ Label.text_inj.mp
  simp only [tableKey, Prod.mk.injEq, hlabels]

/-- Versions have one place if they have the same precedence and no number is respelled. -/
theorem tableKey_eq_iff : v.tableKey = w.tableKey ↔ v.same w = true ∧ ¬v.Respells w := by
  rw [tableKey_eq_iff_parts]
  constructor
  · rintro ⟨hmajor, hminor, hpatch, hlabel⟩
    have hcompare : comparePrerelease v.prerelease w.prerelease = .eq :=
      hlabel ▸ Std.ReflCmp.compare_self
    have hsame := same_iff_parts.mpr ⟨hmajor, hminor, hpatch, hcompare⟩
    exact ⟨hsame, (prerelease_eq_iff_of_same hsame).mp hlabel⟩
  · rintro ⟨hsame, hspelled⟩
    obtain ⟨hmajor, hminor, hpatch, -⟩ := same_iff_parts.mp hsame
    exact ⟨hmajor, hminor, hpatch, (prerelease_eq_iff_of_same hsame).mpr hspelled⟩

/-! ## Numbers without zeros in front -/

/-- If the identifier is a number, it is written with the digits of its value. -/
def Identifier.IsUnpadded (i : Identifier) : Prop :=
  ∀ n, i.number? = some n → i.chars = Decimal.digits n.toNat

theorem Identifier.IsUnpadded.not_respells {i j : Identifier} (hi : i.IsUnpadded)
    (hj : j.IsUnpadded) : ¬i.Respells j := by
  rintro ⟨hne, n, hin, hjn⟩
  have hchars : i.chars = j.chars := (hi n hin).trans (hj n hjn).symm
  obtain ⟨chars, _, _⟩ := i
  cases hchars
  exact hne rfl

/-- No number in the prerelease label has zeros in front. -/
def IsUnpadded (v : Version) : Prop :=
  ∀ l, v.prerelease = some l → ∀ i ∈ l.parts, i.IsUnpadded

theorem IsUnpadded.not_respells (hv : v.IsUnpadded) (hw : w.IsUnpadded) : ¬v.Respells w := by
  rintro ⟨_, l, m, hl, hm, k, i, j, hi, hj, hrespells⟩
  have hi := hv l hl i (List.mem_of_getElem? hi)
  have hj := hw m hm j (List.mem_of_getElem? hj)
  exact hi.not_respells hj hrespells

/-! ## Precedence and place -/

/-- Versions of the same precedence have one place unless a number in the label is written in two
ways. All versions of a precedence have one place if there is no number in the label. Among versions
whose numbers have no zeros in front, precedence and place agree. -/
theorem placed_by_precedence_iff (v w : Version) :
    (v.tableKey = w.tableKey ↔ v.same w = true ∧ ¬v.Respells w) ∧
      ((∀ u, v.same u = true → v.tableKey = u.tableKey) ↔
        ¬∃ l, v.prerelease = some l ∧ ∃ i ∈ l.parts, i.number?.isSome = true) ∧
      (v.IsUnpadded → w.IsUnpadded → (v.tableKey = w.tableKey ↔ v.same w = true)) := by
  refine ⟨tableKey_eq_iff, ?_, fun hv hw ↦ ?_⟩
  · rw [← exists_respells_iff, not_exists]
    constructor
    · intro h u hrespells
      exact (tableKey_eq_iff.mp (h u hrespells.1)).2 hrespells
    · intro h u hsame
      exact tableKey_eq_iff.mpr ⟨hsame, h u⟩
  · rw [tableKey_eq_iff, and_iff_left (hv.not_respells hw)]

end Version

/-! ## What a table finds -/

namespace Memo

variable {i : Index}

/-- What is kept for a candidate is found under one of the same precedence if they have one
place. -/
theorem stored?_after_iff {b c : Package} (hname : b.name = c.name)
    (hsame : b.version.same c.version = true) {texts : List String}
    (hb : i.declared b = .ok texts) :
    (after i [.declared b]).stored? c = some texts ↔ ¬b.version.Respells c.version := by
  have hplace : b.version.tableKey = c.version.tableKey ↔ ¬b.version.Respells c.version := by
    rw [Version.tableKey_eq_iff, and_iff_right hsame]
  rw [← hplace, after_declared hb, stored?, List.find?_singleton, hname, hsame, beq_self_eq_true]
  by_cases h : b.version.tableKey = c.version.tableKey <;> simp [h]

end Memo

/-- An index that lists a version in two spellings, with different requirements. -/
def Index.twoSpellings : Index where
  packages := .ofList [("pkg", { versions := .ofList [
    ("1.0.0-1", { dependencies := ["left"] }), ("1.0.0-01", { dependencies := ["right"] })] })]

/-- Versions of the same precedence with two places: the requirement texts that are kept for one of
them are not found under the other. -/
theorem Version.placed_apart_padded : ∃ b c : Package,
    b.name = "pkg" ∧ parse "1.0.0-1" = .ok b.version ∧
      c.name = "pkg" ∧ parse "1.0.0-01" = .ok c.version ∧
      b.version.same c.version = true ∧ b.version.tableKey ≠ c.version.tableKey ∧
      Index.twoSpellings.declared b = .ok ["left"] ∧
      (Memo.after Index.twoSpellings [.declared b]).stored? c = none := by
  let release (i : Identifier) : Package :=
    { name := "pkg", version := ⟨1, 0, 0, some ⟨[i], List.cons_ne_nil i []⟩, none⟩ }
  exact ⟨release ⟨"1".toList, by decide, by decide⟩, release ⟨"01".toList, by decide, by decide⟩,
    rfl, rfl, rfl, rfl, by decide, by decide, by decide +kernel, by decide +kernel⟩

end SheetPackages
