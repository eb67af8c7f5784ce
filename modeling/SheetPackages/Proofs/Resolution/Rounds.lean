import SheetPackages.Resolution.Search

/-!
# Rounds of a search

A search is a sequence of rounds: each picks a package and takes the first of its candidates behind
which the search goes on to a finish. The parts of a round are named here, with the rest of the
search left open, and a search is shown to be the round that goes on with itself.

A search never goes deeper than there are packages to pin. Repeating rounds by recursion on a bound
for the depth gives a form in which searches of concrete indexes can be evaluated.
-/

namespace SheetPackages.Resolution

/-- The rest of a search: from a state and what was counted so far to its end. -/
abbrev Continuation := State → Progress → Except Fault (Option State × Progress)

/-- A candidate as it is pinned, with the requirements that it was found to have. -/
def settled (c : Package) (requirements : List Dependency) : Package :=
  { c with dependencies := requirements.map Dependency.text }

/-- The pins once a candidate of `name` is among them. -/
def pinnedWith (s : State) (name : String) (c : Package) (requirements : List Dependency) :
    OrderedMap Package :=
  s.pinned.insert name (settled c requirements)

/-- What comes of one candidate: the search behind it, or nothing if it is rejected. -/
def attempt (next : Continuation) (p : Provider) (s : State) (name : String) (c : Package)
    (progress : Progress) : Except Fault (Option State × Progress) := do
  let requirements ← p.requires c
  match ← absorb p (pinnedWith s name c requirements) s.requirements requirements with
  | .ok met => next ⟨met, pinnedWith s name c requirements⟩ progress
  | .error causes => pure (none, { progress with causes })

/-- Tries candidates in order and counts those of which nothing comes. -/
def firstOf (tried : Package → Progress → Except Fault (Option State × Progress)) :
    List Package → Progress → Except Fault (Option State × Progress)
  | [], progress => pure (none, progress)
  | c :: rest, progress =>
    match tried c progress with
    | .error fault => throw fault
    | .ok (some done, progress) => pure (some done, progress)
    | .ok (none, progress) =>
      firstOf tried rest { progress with backtracks := progress.backtracks + 1 }

def round (next : Continuation) (p : Provider) (limit : Option Nat) (s : State)
    (progress : Progress) : Except Fault (Option State × Progress) :=
  let progress := { progress with rounds := progress.rounds + 1 }
  match limit.filter (progress.rounds > ·) with
  | some rounds => throw (.tooManyRounds rounds)
  | none =>
    match pick p s with
    | none => pure (some s, progress)
    | some (name, []) => pure (none, { progress with causes := s.requirementsOn name })
    | some (name, found) => firstOf (attempt next p s name) found progress

theorem tryAll_eq_firstOf (p : Provider) (limit : Option Nat) (s : State) (name : String)
    (hname : name ∈ p.names) (hfree : s.pinned.contains name = false) (found : List Package)
    (progress : Progress) :
    tryAll p limit s name hname hfree found progress =
      firstOf (attempt (search p limit) p s name) found progress := by
  induction found generalizing progress with
  | nil => rw [tryAll, firstOf]
  | cons c rest ih =>
    rw [tryAll, firstOf, attempt]
    simp only [bind, Except.bind, pure, Except.pure, ih, pinnedWith, settled]
    cases p.requires c with
    | error fault => rfl
    | ok requirements =>
      simp only
      cases absorb p (s.pinned.insert name
        { c with dependencies := requirements.map Dependency.text }) s.requirements requirements with
      | error fault => rfl
      | ok answer =>
        rcases answer with causes | met
        · rfl
        · simp only
          rcases search p limit ⟨met, s.pinned.insert name
            { c with dependencies := requirements.map Dependency.text }⟩ progress with
            fault | ⟨_ | done, reached⟩ <;> rfl

theorem search_eq_round (p : Provider) (limit : Option Nat) (s : State) (progress : Progress) :
    search p limit s progress = round (search p limit) p limit s progress := by
  rw [search, round]
  simp only
  cases limit.filter (progress.rounds + 1 > ·) with
  | some rounds => rfl
  | none =>
    simp only
    split
    · next hpick => rw [hpick]
    · next name found hpick =>
      simp only [tryAll_eq_firstOf]
      rw [hpick]
      cases found with
      | nil => rfl
      | cons c rest => rw [dif_neg (List.cons_ne_nil c rest)]

/-! ## What a round needs of the rest -/

/-- Pinning the candidate `c` of `name` leads from `s` to `t`. -/
inductive Pins (p : Provider) (s : State) (name : String) (c : Package) : State → Prop
  | absorbed {requirements : List Dependency} {met : OrderedMap (List Requirement)}
      (hrequires : p.requires c = .ok requirements)
      (habsorb : absorb p (pinnedWith s name c requirements) s.requirements requirements =
        .ok (.ok met)) :
      Pins p s name c ⟨met, pinnedWith s name c requirements⟩

/-- Some candidate of the picked package is pinned. -/
def Step (p : Provider) (s t : State) : Prop :=
  ∃ name found c, pick p s = some (name, found) ∧ c ∈ found ∧ Pins p s name c t

/-- An attempt goes on only where its candidate is pinned. -/
theorem attempt_congr {next other : Continuation} {p : Provider} {s : State} {name : String}
    {c : Package} {progress : Progress}
    (h : ∀ t, Pins p s name c t → next t progress = other t progress) :
    attempt next p s name c progress = attempt other p s name c progress := by
  rw [attempt, attempt]
  cases hrequires : p.requires c with
  | error fault => rfl
  | ok requirements =>
    simp only [bind, Except.bind]
    cases habsorb : absorb p (pinnedWith s name c requirements) s.requirements requirements with
    | error fault => rfl
    | ok answer =>
      cases answer with
      | error causes => rfl
      | ok met => exact h _ (.absorbed hrequires habsorb)

theorem firstOf_congr {f g : Package → Progress → Except Fault (Option State × Progress)}
    {found : List Package} (h : ∀ c ∈ found, ∀ progress, f c progress = g c progress)
    (progress : Progress) : firstOf f found progress = firstOf g found progress := by
  induction found generalizing progress with
  | nil => rfl
  | cons c rest ih =>
    obtain ⟨hc, hrest⟩ := List.forall_mem_cons.mp h
    simp only [firstOf, hc progress, ih hrest]

/-- A round goes on only in states that a pin leads to. -/
theorem round_congr {next other : Continuation} {p : Provider} {s : State}
    (h : ∀ t, Step p s t → ∀ progress, next t progress = other t progress) (limit : Option Nat)
    (progress : Progress) : round next p limit s progress = round other p limit s progress := by
  unfold round
  simp only
  split
  · rfl
  · split
    · rfl
    · rfl
    · next name found _ hpick =>
      refine firstOf_congr (fun c hc progress ↦ attempt_congr fun t hpins ↦ ?_) _
      exact h t ⟨name, found, c, hpick, hc, hpins⟩ progress

/-- A pin of a picked package leaves fewer packages to pin. -/
theorem Step.unpinned_lt {p : Provider} {s t : State} (h : Step p s t) :
    (unpinned p t.pinned).length < (unpinned p s.pinned).length := by
  obtain ⟨name, found, c, hpick, hmem, ⟨_, _⟩⟩ := h
  obtain ⟨hfree, rfl⟩ := pick_spec hpick
  exact unpinned_insert_lt _ (p.known _ _ (List.ne_nil_of_mem hmem)) hfree

/-- What holds of a state if it does of all that a pin leads to holds of every state. -/
theorem Step.induct {p : Provider} {motive : State → Prop}
    (h : ∀ s, (∀ t, Step p s t → motive t) → motive s) (s : State) : motive s := by
  induction hn : (unpinned p s.pinned).length using Nat.strongRecOn generalizing s with
  | _ n ih => exact h s fun t hstep ↦ ih _ (hn ▸ hstep.unpinned_lt) t rfl

/-! ## Bounded depth -/

/-- The search that finds nothing below a depth. -/
def searchWithin (p : Provider) (limit : Option Nat) : Nat → Continuation
  | 0, _, progress => pure (none, progress)
  | depth + 1, s, progress => round (searchWithin p limit depth) p limit s progress

theorem search_eq_searchWithin {p : Provider} {limit : Option Nat} {depth : Nat} {s : State}
    (hdepth : (unpinned p s.pinned).length < depth) (progress : Progress) :
    search p limit s progress = searchWithin p limit depth s progress := by
  induction depth generalizing s progress with
  | zero => cases hdepth
  | succ depth ih =>
    rw [search_eq_round, searchWithin]
    refine round_congr (fun t hstep progress ↦ ih ?_ progress) limit progress
    have := hstep.unpinned_lt
    omega

/-- The resolution whose search is of bounded depth. -/
def resolveWithin (p : Provider) (limit : Option Nat) (roots : List Dependency) :
    Except Fault Outcome := do
  let read ← roots.mapM Requirement.ofDependency
  let depth := p.names.length + 1
  let (result, progress) ← searchWithin p limit depth ⟨read.foldl record .empty, .empty⟩ {}
  match result with
  | some s => return ⟨s.pinned.values, progress.rounds, progress.backtracks⟩
  | none =>
    let causes := if progress.causes = [] then read else progress.causes
    throw (.unsatisfiable (causes.map (·.dependency)))

theorem resolve_eq_resolveWithin (p : Provider) (limit : Option Nat) (roots : List Dependency) :
    resolve p limit roots = resolveWithin p limit roots := by
  have hdepth : (unpinned p .empty).length < p.names.length + 1 :=
    Nat.lt_succ_of_le (List.length_filter_le _ _)
  unfold resolve resolveWithin
  cases roots.mapM Requirement.ofDependency with
  | error fault => rfl
  | ok read =>
    let begun : State := ⟨read.foldl record .empty, .empty⟩
    have hsearch : search p limit begun {} = searchWithin p limit (p.names.length + 1) begun {} :=
      search_eq_searchWithin hdepth {}
    cases hwithin : searchWithin p limit (p.names.length + 1) begun {} with
    | error fault => simp only [bind, Except.bind, begun, hsearch, hwithin]
    | ok ending =>
      rcases ending with ⟨_ | s, progress⟩ <;>
        simp only [bind, Except.bind, begun, hsearch, hwithin]

end SheetPackages.Resolution
