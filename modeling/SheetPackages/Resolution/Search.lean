import SheetPackages.Resolution.Provider

/-!
# Resolving requirements

The resolver pins one candidate for each required package. In every round it takes the package
without a pin that has the fewest candidates, among equals the one required first, and tries its
candidates best first. Pinning a candidate adds its requirements one by one; each must be satisfied
by the pin of its package, or leave that package a candidate. A branch ends where some package has
no candidate left. Every pin uses up a name of the provider, so the search ends with or without a
limit on its rounds.
-/

namespace SheetPackages.Resolution

/-- The requirements met so far by package, in order of discovery, and the pins in order. -/
structure State where
  requirements : OrderedMap (List Requirement) := .empty
  pinned : OrderedMap Package := .empty

namespace State

def requirementsOn (s : State) (name : String) : List Requirement :=
  (s.requirements.get? name).getD []

/-- The required packages without a pin. -/
def unresolved (s : State) : List String :=
  s.requirements.keys.filter fun name ↦ !s.pinned.contains name

end State

/-- Adds a requirement behind the others on its package. -/
def record (requirements : OrderedMap (List Requirement)) (r : Requirement) :
    OrderedMap (List Requirement) :=
  requirements.insert r.name ((requirements.get? r.name).getD [] ++ [r])

/-- What all branches of one search share: the rounds begun, the candidates given up, and the
requirements of the latest conflict. -/
structure Progress where
  rounds : Nat := 0
  backtracks : Nat := 0
  causes : List Requirement := []

/-- Whether a name with these candidates is preferred to the best one so far. -/
def fewer (found : List Package) : Option (String × List Package) → Bool
  | some (_, current) => found.length < current.length
  | none => true

/-- Takes a name in place of the best one so far if it has fewer candidates; a name without
candidates ends the choice. -/
def pickFrom (p : Provider) (s : State) (best : Option (String × List Package)) :
    List String → Option (String × List Package)
  | [] => best
  | name :: rest =>
    let found := p.candidates name (s.requirementsOn name)
    if fewer found best then
      if found.isEmpty then some (name, found) else pickFrom p s (some (name, found)) rest
    else pickFrom p s best rest

/-- The package to pin next, with its candidates. -/
def pick (p : Provider) (s : State) : Option (String × List Package) :=
  pickFrom p s none s.unresolved

/-- Adds the requirements of a candidate one after the other. The inner error holds the
requirements of the package for which none is left. -/
def absorb (p : Provider) (pinned : OrderedMap Package)
    (requirements : OrderedMap (List Requirement)) :
    List Dependency → Except Fault (Except (List Requirement) (OrderedMap (List Requirement)))
  | [] => pure (.ok requirements)
  | d :: rest => do
    let r ← Requirement.ofDependency d
    let requirements := record requirements r
    let onSame := (requirements.get? r.name).getD []
    let viable := match pinned.get? r.name with
      | some package => r.isSatisfiedBy package
      | none => !(p.candidates r.name onSame).isEmpty
    if viable then absorb p pinned requirements rest else pure (.error onSame)

/-- The names of the provider that are not pinned. -/
def unpinned (p : Provider) (pinned : OrderedMap Package) : List String :=
  p.names.filter fun name ↦ !pinned.contains name

theorem pickFrom_spec {p : Provider} {s : State} {best : Option (String × List Package)}
    {names : List String} {name : String} {found : List Package}
    (h : pickFrom p s best names = some (name, found)) :
    best = some (name, found) ∨
      (name ∈ names ∧ found = p.candidates name (s.requirementsOn name)) := by
  induction names generalizing best with
  | nil => exact .inl h
  | cons next rest ih =>
    unfold pickFrom at h
    simp only at h
    split at h
    · split at h
      · simp only [Option.some.injEq, Prod.mk.injEq] at h
        obtain ⟨rfl, rfl⟩ := h
        exact .inr ⟨List.mem_cons_self, rfl⟩
      · rcases ih h with h' | ⟨hm, hc⟩
        · simp only [Option.some.injEq, Prod.mk.injEq] at h'
          obtain ⟨rfl, rfl⟩ := h'
          exact .inr ⟨List.mem_cons_self, rfl⟩
        · exact .inr ⟨List.mem_cons_of_mem _ hm, hc⟩
    · rcases ih h with h' | ⟨hm, hc⟩
      · exact .inl h'
      · exact .inr ⟨List.mem_cons_of_mem _ hm, hc⟩

/-- A picked package is not pinned, and its candidates are those that its requirements leave. -/
theorem pick_spec {p : Provider} {s : State} {name : String} {found : List Package}
    (h : pick p s = some (name, found)) :
    s.pinned.contains name = false ∧ found = p.candidates name (s.requirementsOn name) := by
  rcases pickFrom_spec h with h' | ⟨hm, hc⟩
  · cases h'
  · refine ⟨?_, hc⟩
    simpa using (List.mem_filter.mp hm).2

theorem length_filter_lt {names : List String} {name : String} {f g : String → Bool}
    (himp : ∀ x, g x → f x) (hmem : name ∈ names) (hf : f name) (hg : ¬g name) :
    (names.filter g).length < (names.filter f).length := by
  induction names with
  | nil => cases hmem
  | cons x rest ih =>
    have hle : (rest.filter g).length ≤ (rest.filter f).length := by
      rw [← List.countP_eq_length_filter, ← List.countP_eq_length_filter]
      exact List.countP_mono_left fun y _ ↦ himp y
    rcases List.mem_cons.mp hmem with rfl | hmem
    · simp only [List.filter_cons, hf, hg, if_true, Bool.false_eq_true, if_false,
        List.length_cons]
      omega
    · have := ih hmem
      simp only [List.filter_cons]
      by_cases hgx : g x
      · simp only [hgx, himp x hgx, if_true, List.length_cons]
        omega
      · by_cases hfx : f x <;> simp only [hgx, hfx, if_true, Bool.false_eq_true, if_false,
          List.length_cons] <;> omega

/-- Pinning a package with candidates leaves fewer names without a pin. -/
theorem unpinned_insert_lt {p : Provider} {pinned : OrderedMap Package} {name : String}
    (package : Package) (hname : name ∈ p.names) (hfree : pinned.contains name = false) :
    (unpinned p (pinned.insert name package)).length < (unpinned p pinned).length := by
  unfold unpinned
  refine length_filter_lt ?_ hname ?_ ?_
  · intro x hx
    rw [OrderedMap.contains_insert] at hx
    simp only [Bool.not_or, Bool.and_eq_true] at hx
    exact hx.2
  · simp [hfree]
  · simp [OrderedMap.contains_insert]

mutual

/-- Extends a state to one in which every required package is pinned; nothing when no choice of
candidates does. -/
def search (p : Provider) (limit : Option Nat) (s : State) (progress : Progress) :
    Except Fault (Option State × Progress) :=
  let progress := { progress with rounds := progress.rounds + 1 }
  match limit.filter (progress.rounds > ·) with
  | some rounds => throw (.tooManyRounds rounds)
  | none =>
    match hpick : pick p s with
    | none => pure (some s, progress)
    | some (name, found) =>
      if hfound : found = [] then
        pure (none, { progress with causes := s.requirementsOn name })
      else
        have hname : name ∈ p.names :=
          p.known name (s.requirementsOn name) ((pick_spec hpick).2 ▸ hfound)
        have hfree : s.pinned.contains name = false := (pick_spec hpick).1
        tryAll p limit s name hname hfree found progress
termination_by ((unpinned p s.pinned).length, 1, 0)
decreasing_by
  exact Prod.Lex.right _ (Prod.Lex.left _ _ (by decide))

/-- Tries the candidates of a package in order. -/
def tryAll (p : Provider) (limit : Option Nat) (s : State) (name : String)
    (hname : name ∈ p.names) (hfree : s.pinned.contains name = false) (found : List Package)
    (progress : Progress) : Except Fault (Option State × Progress) :=
  match found with
  | [] => pure (none, progress)
  | candidate :: rest => do
    let requirements ← p.requires candidate
    let candidate := { candidate with dependencies := requirements.map Dependency.text }
    let pinned := s.pinned.insert name candidate
    let (result, progress) ← match ← absorb p pinned s.requirements requirements with
      | .ok met => search p limit ⟨met, pinned⟩ progress
      | .error causes => pure (none, { progress with causes })
    match result with
    | some done => pure (some done, progress)
    | none =>
      let progress := { progress with backtracks := progress.backtracks + 1 }
      tryAll p limit s name hname hfree rest progress
termination_by ((unpinned p s.pinned).length, 0, found.length)
decreasing_by
  · exact Prod.Lex.right _ (Prod.Lex.right _ (by simp))
  · exact Prod.Lex.left _ _ (unpinned_insert_lt _ hname hfree)

end

/-- A finished resolution: the packages in the order of their pins. -/
structure Outcome where
  packages : List Package
  rounds : Nat
  backtracks : Nat

def defaultLimit : Nat := 200000

/-- Pins a package for every requirement, directly or indirectly. -/
def resolve (p : Provider) (limit : Option Nat) (requirements : List Dependency) :
    Except Fault Outcome := do
  let read ← requirements.mapM Requirement.ofDependency
  let (result, progress) ← search p limit ⟨read.foldl record .empty, .empty⟩ {}
  match result with
  | some s => return ⟨s.pinned.values, progress.rounds, progress.backtracks⟩
  | none =>
    let causes := if progress.causes = [] then read else progress.causes
    throw (.unsatisfiable (causes.map (·.dependency)))

end SheetPackages.Resolution
