import Mathlib.Logic.Relation
import SheetPackages.Lockfile.Closure

/-!
# Closures of lockfiles

The closure of some roots holds exactly the names that dependencies of locked packages reach from
them: whatever an expanded name needs, the walk has expanded as well or will still do so. In a
closed lockfile, in which everything needed is locked, locked roots reach nothing but locked names.

The order in which names are reached is not described here.
-/

namespace SheetPackages.Lockfile

open Relation (ReflTransGen)

/-- Dependencies of locked packages lead from one name to the other. -/
def Reaches (l : Lockfile) : String → String → Prop :=
  ReflTransGen fun a b ↦ b ∈ l.needs a

/-- The walk has noted the name, whether or not it has expanded it. -/
def Noted (reached pending : List String) (name : String) : Prop :=
  name ∈ reached ∨ name ∈ pending

/-- The walk has noted everything that the expanded names need. -/
def Settled (l : Lockfile) (reached pending : List String) : Prop :=
  ∀ a ∈ reached, ∀ b ∈ l.needs a, Noted reached pending b

variable {l : Lockfile} {reached pending roots rest : List String} {name first : String}

theorem Noted.skip (h : Noted reached (first :: rest) name) (hold : first ∈ reached) :
    Noted reached rest name := by
  rcases h with h | h
  · exact .inl h
  · rcases List.mem_cons.mp h with rfl | h
    · exact .inl hold
    · exact .inr h

theorem Noted.expand (h : Noted reached (first :: rest) name) (needed : List String) :
    Noted (first :: reached) (needed ++ rest) name := by
  rcases h with h | h
  · exact .inl (List.mem_cons_of_mem _ h)
  · rcases List.mem_cons.mp h with rfl | h
    · exact .inl List.mem_cons_self
    · exact .inr (List.mem_append_right _ h)

theorem mem_walk (h : Noted reached pending name) : name ∈ l.walk reached pending := by
  fun_induction walk l reached pending with
  | case1 reached => exact h.resolve_right List.not_mem_nil
  | case2 reached first rest hold ih => exact ih (h.skip hold)
  | case3 reached first rest _ ih => exact ih (h.expand (l.needs first))

/-- The walk adds only names that the pending ones reach. -/
theorem reaches_of_mem_walk (h : name ∈ l.walk reached pending) :
    name ∈ reached ∨ ∃ root ∈ pending, l.Reaches root name := by
  fun_induction walk l reached pending with
  | case1 reached => exact .inl h
  | case2 reached first rest _ ih =>
    refine (ih h).imp_right fun ⟨root, hroot, hreaches⟩ ↦ ?_
    exact ⟨root, List.mem_cons_of_mem _ hroot, hreaches⟩
  | case3 reached first rest _ ih =>
    rcases ih h with hmem | ⟨root, hroot, hreaches⟩
    · rcases List.mem_cons.mp hmem with rfl | hmem
      · exact .inr ⟨name, List.mem_cons_self, .refl⟩
      · exact .inl hmem
    · rcases List.mem_append.mp hroot with hneeded | hroot
      · exact .inr ⟨first, List.mem_cons_self, .head hneeded hreaches⟩
      · exact .inr ⟨root, List.mem_cons_of_mem _ hroot, hreaches⟩

/-- In the end everything needed has been expanded. -/
theorem settled_walk (h : l.Settled reached pending) : l.Settled (l.walk reached pending) [] := by
  fun_induction walk l reached pending with
  | case1 reached => exact h
  | case2 reached first rest hold ih => exact ih fun a ha b hb ↦ (h a ha b hb).skip hold
  | case3 reached first rest _ ih =>
    refine ih fun a ha b hb ↦ ?_
    rcases List.mem_cons.mp ha with rfl | ha
    · exact .inr (List.mem_append_left _ hb)
    · exact (h a ha b hb).expand (l.needs first)

/-- The closure holds what some root reaches, and nothing else. -/
theorem mem_closure_iff : name ∈ l.closure roots ↔ ∃ root ∈ roots, l.Reaches root name := by
  constructor
  · intro h
    exact (reaches_of_mem_walk h).resolve_left List.not_mem_nil
  · rintro ⟨root, hroot, hreaches⟩
    have hsettled : l.Settled (l.closure roots) [] :=
      settled_walk fun a ha ↦ absurd ha List.not_mem_nil
    induction hreaches with
    | refl => exact mem_walk (.inr hroot)
    | tail _ hneeds ih => exact (hsettled _ ih _ hneeds).resolve_right List.not_mem_nil

theorem mem_closure_of_reaches {root : String} (hroot : root ∈ l.closure roots)
    (hreaches : l.Reaches root name) : name ∈ l.closure roots := by
  obtain ⟨first, hfirst, hbefore⟩ := mem_closure_iff.mp hroot
  exact mem_closure_iff.mpr ⟨first, hfirst, hbefore.trans hreaches⟩

theorem mem_closure_of_mem (h : name ∈ roots) : name ∈ l.closure roots :=
  mem_closure_iff.mpr ⟨name, h, .refl⟩

/-! ## Closed lockfiles -/

/-- Everything that a locked package depends on is locked. -/
def Closed (l : Lockfile) : Prop :=
  ∀ name entry, l.get? name = some entry →
    ∀ needed ∈ entry.dependencyNames, l.contains needed = true

theorem Closed.contains_of_needs (h : l.Closed) {needed : String} (hneeds : needed ∈ l.needs name) :
    l.contains needed = true := by
  unfold needs at hneeds
  split at hneeds
  · next entry hentry => exact h name entry hentry needed hneeds
  · cases hneeds

theorem Closed.contains_of_reaches (h : l.Closed) {root : String} (hroot : l.contains root = true)
    (hreaches : l.Reaches root name) : l.contains name = true := by
  induction hreaches with
  | refl => exact hroot
  | tail _ hneeds _ => exact h.contains_of_needs hneeds

end SheetPackages.Lockfile
