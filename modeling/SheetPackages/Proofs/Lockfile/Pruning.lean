import SheetPackages.Proofs.Lockfile.Closure

/-!
# Pruned lockfiles

A lockfile cut down to what some roots reach has lost none of the ways from these roots: a name on
such a way is reached itself, so its entry has stayed. Hence fewer roots reach the same names in it
as in the whole lockfile, and pruning in two steps leaves what pruning at once leaves.
-/

namespace SheetPackages.Lockfile

/-- The packages that some roots reach, in their order. -/
def needed (l : Lockfile) (roots : List String) : Lockfile :=
  ⟨l.packages.filter fun name _ ↦ name ∈ l.closure roots⟩

/-- The packages that no root reaches. -/
def orphans (l : Lockfile) (roots : List String) : List (String × Locked) :=
  l.packages.entries.filter fun entry ↦ entry.1 ∉ l.closure roots

variable {l : Lockfile} {roots more : List String} {name : String} {entry : Locked}

theorem get?_needed : (l.needed roots).get? name = some entry ↔
    l.get? name = some entry ∧ name ∈ l.closure roots := by
  rw [get?, needed, OrderedMap.get?_filter, Option.filter_eq_some_iff, decide_eq_true_eq, get?]

theorem contains_iff_get? : l.contains name = true ↔ ∃ entry, l.get? name = some entry :=
  Option.isSome_iff_exists

theorem contains_needed : (l.needed roots).contains name = true ↔
    l.contains name = true ∧ name ∈ l.closure roots := by
  simp only [contains_iff_get?, get?_needed, exists_and_right]

theorem mem_orphans : (name, entry) ∈ l.orphans roots ↔
    l.get? name = some entry ∧ name ∉ l.closure roots := by
  rw [orphans, List.mem_filter, decide_eq_true_eq, get?, OrderedMap.get?_eq_some_iff]

theorem mem_map_fst_orphans : name ∈ (l.orphans roots).map Prod.fst ↔
    l.contains name = true ∧ name ∉ l.closure roots := by
  simp only [List.mem_map, Prod.exists, exists_and_right, exists_eq_right, mem_orphans,
    contains_iff_get?]

/-- A reached name needs what it needed before, locked or not. -/
theorem needs_needed (h : name ∈ l.closure roots) : (l.needed roots).needs name = l.needs name := by
  have hget : (l.needed roots).get? name = l.get? name :=
    Option.ext fun entry ↦ get?_needed.trans (and_iff_left h)
  rw [needs, needs, hget]

theorem closure_mono (h : more ⊆ roots) (hname : name ∈ l.closure more) :
    name ∈ l.closure roots := by
  obtain ⟨root, hroot, hreaches⟩ := mem_closure_iff.mp hname
  exact mem_closure_iff.mpr ⟨root, h hroot, hreaches⟩

/-- From a reached name the same names are reached as before. -/
theorem reaches_needed {root : String} (hroot : root ∈ l.closure roots) :
    (l.needed roots).Reaches root name ↔ l.Reaches root name := by
  constructor
  · intro hreaches
    induction hreaches with
    | refl => exact .refl
    | tail _ hneeds ih =>
      rw [needs_needed (mem_closure_of_reaches hroot ih)] at hneeds
      exact ih.tail hneeds
  · intro hreaches
    induction hreaches with
    | refl => exact .refl
    | tail hbefore hneeds ih =>
      rw [← needs_needed (mem_closure_of_reaches hroot hbefore)] at hneeds
      exact ih.tail hneeds

theorem closure_needed (h : more ⊆ roots) :
    name ∈ (l.needed roots).closure more ↔ name ∈ l.closure more := by
  rw [mem_closure_iff, mem_closure_iff]
  refine exists_congr fun root ↦ and_congr_right fun hroot ↦ ?_
  exact reaches_needed (mem_closure_iff.mpr ⟨root, h hroot, .refl⟩)

/-- What fewer roots need can be found in what all of them need. -/
theorem needed_needed (h : more ⊆ roots) : (l.needed roots).needed more = l.needed more := by
  unfold needed
  rw [mk.injEq]
  apply OrderedMap.ext
  change (l.packages.entries.filter _).filter _ = l.packages.entries.filter _
  rw [List.filter_filter]
  refine List.filter_congr fun first _ ↦ ?_
  have hclosure : first.1 ∈ (l.needed roots).closure more ↔ first.1 ∈ l.closure more :=
    closure_needed h
  rw [needed] at hclosure
  rw [← Bool.decide_and, decide_eq_decide, hclosure]
  exact and_iff_left_of_imp (closure_mono h)

/-- First the orphans of all roots go, then those of fewer roots among what is left. -/
theorem orphans_of_needed (h : more ⊆ roots) :
    (name, entry) ∈ l.orphans roots ++ (l.needed roots).orphans more ↔
      (name, entry) ∈ l.orphans more := by
  rw [List.mem_append, mem_orphans, mem_orphans, mem_orphans, get?_needed, closure_needed h]
  constructor
  · rintro (⟨hget, hlost⟩ | ⟨⟨hget, _⟩, hlost⟩)
    · exact ⟨hget, fun hreached ↦ hlost (closure_mono h hreached)⟩
    · exact ⟨hget, hlost⟩
  · rintro ⟨hget, hlost⟩
    by_cases hreached : name ∈ l.closure roots
    · exact .inr ⟨⟨hget, hreached⟩, hlost⟩
    · exact .inl ⟨hget, hreached⟩

end SheetPackages.Lockfile
