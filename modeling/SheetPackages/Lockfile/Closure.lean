import SheetPackages.Lockfile.Basic

/-!
# Reachable packages

The packages that some roots need: the roots themselves and, package by package, what the lockfile
says they depend on. Roots and dependencies count whether they are locked or not. Every locked name
is expanded once, so the walk ends on cyclic lockfiles as well.
-/

namespace SheetPackages.Lockfile

/-- The names that a locked package depends on; none for a package that is not locked. -/
def needs (l : Lockfile) (name : String) : List String :=
  match l.get? name with
  | some entry => entry.dependencyNames
  | none => []

/-- The locked names that have not been reached. -/
def unreached (l : Lockfile) (reached : List String) : List String :=
  l.packages.keys.filter fun name ↦ name ∉ reached

theorem needs_eq_nil {l : Lockfile} {name : String} (h : name ∉ l.packages.keys) :
    l.needs name = [] := by
  unfold needs get?
  cases hg : l.packages.get? name with
  | none => rfl
  | some entry => exact absurd (OrderedMap.mem_keys_of_get? hg) h

theorem length_unreached_le (l : Lockfile) (reached : List String) (name : String) :
    (l.unreached (name :: reached)).length ≤ (l.unreached reached).length := by
  unfold unreached
  rw [← List.countP_eq_length_filter, ← List.countP_eq_length_filter]
  refine List.countP_mono_left fun x _ hx ↦ ?_
  simp only [List.mem_cons, not_or, decide_eq_true_eq] at hx ⊢
  exact hx.2

theorem length_unreached_lt {l : Lockfile} {reached : List String} {name : String}
    (hkey : name ∈ l.packages.keys) (hnew : name ∉ reached) :
    (l.unreached (name :: reached)).length < (l.unreached reached).length := by
  unfold unreached
  generalize l.packages.keys = keys at hkey
  induction keys with
  | nil => cases hkey
  | cons x rest ih =>
    have hle : (rest.filter fun y ↦ y ∉ name :: reached).length ≤
        (rest.filter fun y ↦ y ∉ reached).length := by
      rw [← List.countP_eq_length_filter, ← List.countP_eq_length_filter]
      refine List.countP_mono_left fun y _ hy ↦ ?_
      simp only [List.mem_cons, not_or, decide_eq_true_eq] at hy ⊢
      exact hy.2
    by_cases hx : x = name
    · subst hx
      simpa [hnew] using Nat.lt_succ_of_le hle
    · have hrest : name ∈ rest := by
        rcases List.mem_cons.mp hkey with h | h
        · exact absurd h.symm hx
        · exact h
      have := ih hrest
      by_cases hr : x ∈ reached
      · simpa [hr] using this
      · simpa [hr, hx] using this

/-- Expands the pending names one after the other; `reached` holds the names met so far, latest
one first. -/
def walk (l : Lockfile) (reached pending : List String) : List String :=
  match pending with
  | [] => reached
  | name :: rest =>
    if name ∈ reached then walk l reached rest
    else walk l (name :: reached) (l.needs name ++ rest)
termination_by ((l.unreached reached).length, pending.length)
decreasing_by
  · exact Prod.Lex.right _ (by simp)
  · by_cases hkey : name ∈ l.packages.keys
    · exact Prod.Lex.left _ _ (length_unreached_lt hkey ‹_›)
    · rw [needs_eq_nil hkey]
      rcases Nat.lt_or_eq_of_le (length_unreached_le l reached name) with h | h
      · exact Prod.Lex.left _ _ h
      · rw [h]
        exact Prod.Lex.right _ (by simp)

/-- Every name reachable from `roots`, the roots among them. -/
def closure (l : Lockfile) (roots : List String) : List String :=
  walk l [] roots

end SheetPackages.Lockfile
