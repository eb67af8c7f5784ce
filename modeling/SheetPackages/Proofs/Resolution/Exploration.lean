import Mathlib.Logic.Relation
import SheetPackages.Proofs.Resolution.Rounds

/-!
# Explorations

What a search does, without its counters: it finishes in a state in which every required package is
pinned, enters the state behind one of the candidates of the picked package, or gives all of them
up. Candidates are taken in order, so all those before the entered one have been given up.

Every search is an exploration. The other statements about searches are read off explorations: a
finished state is reached by pins, and a fault of a search is its limit or a requirement that cannot
be read. Which rounds and which conflicts are counted is not described here.
-/

namespace SheetPackages.Resolution

/-- The requirements of the candidate conflict with what is required or pinned. -/
def Rejects (p : Provider) (s : State) (name : String) (c : Package) : Prop :=
  ∃ requirements causes, p.requires c = .ok requirements ∧
    absorb p (pinnedWith s name c requirements) s.requirements requirements = .ok (.error causes)

/-- The requirements of the candidate are not known or cannot be read. -/
def Fails (p : Provider) (s : State) (name : String) (c : Package) (fault : Fault) : Prop :=
  p.requires c = .error fault ∨ ∃ requirements, p.requires c = .ok requirements ∧
    absorb p (pinnedWith s name c requirements) s.requirements requirements = .error fault

/-- How a search from a state ends: in a finished state, in a fault, or with nothing when every
candidate was given up. -/
inductive Explored (p : Provider) : State → Except Fault (Option State) → Prop
  | finished {s : State} (hpick : pick p s = none) : Explored p s (.ok (some s))
  | outOfRounds {s : State} {limit : Nat} : Explored p s (.error (.tooManyRounds limit))
  | failed {s : State} {name : String} {found : List Package} {c : Package} {fault : Fault}
      (hpick : pick p s = some (name, found)) (hmem : c ∈ found)
      (hfails : Fails p s name c fault) : Explored p s (.error fault)
  | entered {s t : State} {name : String} {before after : List Package} {c : Package}
      {result : Except Fault (Option State)}
      (hpick : pick p s = some (name, before ++ c :: after))
      (hbefore : ∀ b ∈ before, Rejects p s name b ∨ ∃ t, Pins p s name b t)
      (habandoned : ∀ b ∈ before, ∀ t, Pins p s name b t → Explored p t (.ok none))
      (hpins : Pins p s name c t) (hnext : Explored p t result) (hresult : result ≠ .ok none) :
      Explored p s result
  | exhausted {s : State} {name : String} {found : List Package}
      (hpick : pick p s = some (name, found))
      (htried : ∀ c ∈ found, Rejects p s name c ∨ ∃ t, Pins p s name c t)
      (habandoned : ∀ c ∈ found, ∀ t, Pins p s name c t → Explored p t (.ok none)) :
      Explored p s (.ok none)

theorem Pins.unique {p : Provider} {s t u : State} {name : String} {c : Package}
    (ht : Pins p s name c t) (hu : Pins p s name c u) : t = u := by
  obtain ⟨hreq, habs⟩ := ht
  obtain ⟨hreq', habs'⟩ := hu
  rw [hreq] at hreq'
  cases hreq'
  rw [habs] at habs'
  cases habs'
  rfl

theorem Rejects.not_pins {p : Provider} {s t : State} {name : String} {c : Package}
    (hr : Rejects p s name c) : ¬Pins p s name c t := by
  obtain ⟨requirements, causes, hreq, habs⟩ := hr
  rintro ⟨hreq', habs'⟩
  rw [hreq] at hreq'
  cases hreq'
  rw [habs] at habs'
  cases habs'

/-- What an attempt at a candidate says about the search behind it. -/
def Attempted (p : Provider) (s : State) (name : String) (c : Package) :
    Except Fault (Option State) → Prop
  | .error fault => Fails p s name c fault ∨ ∃ t, Pins p s name c t ∧ Explored p t (.error fault)
  | .ok (some done) => ∃ t, Pins p s name c t ∧ Explored p t (.ok (some done))
  | .ok none => (Rejects p s name c ∨ ∃ t, Pins p s name c t) ∧
      ∀ t, Pins p s name c t → Explored p t (.ok none)

theorem attempt_attempted {next : Continuation} {p : Provider} {s : State} {name : String}
    {c : Package} {progress : Progress}
    (hnext : ∀ t, Pins p s name c t → Explored p t ((next t progress).map Prod.fst)) :
    Attempted p s name c ((attempt next p s name c progress).map Prod.fst) := by
  rw [attempt]
  cases hreq : p.requires c with
  | error fault => exact .inl (.inl hreq)
  | ok requirements =>
    simp only [bind, Except.bind, pure, Except.pure]
    cases habs : absorb p (pinnedWith s name c requirements) s.requirements requirements with
    | error fault => exact .inl (.inr ⟨requirements, hreq, habs⟩)
    | ok answer =>
      cases answer with
      | error causes =>
        have hrejects : Rejects p s name c := ⟨requirements, causes, hreq, habs⟩
        exact ⟨.inl hrejects, fun t ht ↦ absurd ht hrejects.not_pins⟩
      | ok met =>
        have hpins : Pins p s name c _ := .absorbed hreq habs
        have hend := hnext _ hpins
        simp only
        cases hs : next ⟨met, pinnedWith s name c requirements⟩ progress with
        | error fault =>
          rw [hs] at hend
          exact .inr ⟨_, hpins, hend⟩
        | ok ending =>
          rw [hs] at hend
          obtain ⟨_ | done, reached⟩ := ending
          · exact ⟨.inr ⟨_, hpins⟩, fun t ht ↦ hpins.unique ht ▸ hend⟩
          · exact ⟨_, hpins, hend⟩

/-- The candidates that are still to be tried follow some that have been given up. -/
theorem firstOf_explored {p : Provider} {s : State} {name : String}
    {tried : Package → Progress → Except Fault (Option State × Progress)}
    (before found : List Package)
    (htry : ∀ c ∈ found, ∀ progress, Attempted p s name c ((tried c progress).map Prod.fst))
    (hpick : pick p s = some (name, before ++ found))
    (htried : ∀ b ∈ before, Rejects p s name b ∨ ∃ t, Pins p s name b t)
    (habandoned : ∀ b ∈ before, ∀ t, Pins p s name b t → Explored p t (.ok none))
    (progress : Progress) : Explored p s ((firstOf tried found progress).map Prod.fst) := by
  induction found generalizing before progress with
  | nil =>
    rw [List.append_nil] at hpick
    exact .exhausted hpick htried habandoned
  | cons c rest ih =>
    obtain ⟨hc, hrest⟩ := List.forall_mem_cons.mp htry
    have hc := hc progress
    rw [firstOf]
    cases ha : tried c progress with
    | error fault =>
      rw [ha] at hc
      rcases hc with hfails | ⟨t, hpins, hend⟩
      · exact .failed hpick (by simp) hfails
      · exact .entered hpick htried habandoned hpins hend fun h ↦ by cases h
    | ok ending =>
      rw [ha] at hc
      obtain ⟨_ | done, reached⟩ := ending
      · refine ih (before ++ [c]) hrest (by simpa using hpick) ?_ ?_ _
        · exact List.forall_mem_append.mpr ⟨htried, List.forall_mem_singleton.mpr hc.1⟩
        · exact List.forall_mem_append.mpr ⟨habandoned, List.forall_mem_singleton.mpr hc.2⟩
      · obtain ⟨t, hpins, hend⟩ := hc
        exact .entered hpick htried habandoned hpins hend fun h ↦ by cases h

/-- A round explores if the rest does, in the states that a pin leads to. -/
theorem round_explored {next : Continuation} {p : Provider} {s : State}
    (hnext : ∀ t, Step p s t → ∀ progress, Explored p t ((next t progress).map Prod.fst))
    (limit : Option Nat) (progress : Progress) :
    Explored p s ((round next p limit s progress).map Prod.fst) := by
  unfold round
  simp only
  split
  · exact .outOfRounds
  · split
    · next hpick => exact .finished hpick
    · next name hpick => exact .exhausted hpick (by simp) (by simp)
    · next name found _ hpick =>
      refine firstOf_explored [] found (fun c hc progress ↦ ?_) hpick (by simp) (by simp) _
      exact attempt_attempted fun t hpins ↦ hnext t ⟨name, found, c, hpick, hc, hpins⟩ progress

/-- Every search is an exploration, whatever its limit. -/
theorem search_explored (p : Provider) (limit : Option Nat) (s : State) (progress : Progress) :
    Explored p s ((search p limit s progress).map Prod.fst) := by
  induction s using Step.induct (p := p) generalizing progress with
  | h s ih =>
    rw [search_eq_round]
    exact round_explored ih limit progress

/-! ## Endings -/

theorem pickFrom_eq_none {p : Provider} {s : State} {best : Option (String × List Package)}
    {names : List String} (h : pickFrom p s best names = none) : best = none ∧ names = [] := by
  induction names generalizing best with
  | nil => exact ⟨h, rfl⟩
  | cons name rest ih =>
    rw [pickFrom] at h
    split at h
    · split at h
      · cases h
      · cases (ih h).1
    · next hfewer =>
      -- Without a best name so far, any name is preferred.
      rw [(ih h).1] at hfewer
      exact absurd rfl hfewer

/-- When nothing is picked, every required package is pinned. -/
theorem unresolved_eq_nil {p : Provider} {s : State} (h : pick p s = none) : s.unresolved = [] :=
  (pickFrom_eq_none h).2

/-- A search that finishes has pinned its way to a state without unresolved packages. -/
theorem Explored.reaches {p : Provider} {s : State} {result : Except Fault (Option State)}
    (h : Explored p s result) {t : State} (hresult : result = .ok (some t)) :
    Relation.ReflTransGen (Step p) s t ∧ pick p t = none := by
  induction h with
  | finished hpick =>
    cases hresult
    exact ⟨.refl, hpick⟩
  | outOfRounds => cases hresult
  | failed => cases hresult
  | entered hpick _ _ hpins _ _ _ ih =>
    obtain ⟨hsteps, hdone⟩ := ih hresult
    exact ⟨.head ⟨_, _, _, hpick, by simp, hpins⟩ hsteps, hdone⟩
  | exhausted => cases hresult

/-- A fault of a search is its limit, or one of a candidate's requirements. -/
theorem Explored.fault {p : Provider} {s : State} {result : Except Fault (Option State)}
    (h : Explored p s result) {fault : Fault} (hresult : result = .error fault) :
    (∃ limit, fault = .tooManyRounds limit) ∨
      ∃ u name found c, pick p u = some (name, found) ∧ c ∈ found ∧ Fails p u name c fault := by
  induction h with
  | finished => cases hresult
  | outOfRounds =>
    cases hresult
    exact .inl ⟨_, rfl⟩
  | failed hpick hmem hfails =>
    cases hresult
    exact .inr ⟨_, _, _, _, hpick, hmem, hfails⟩
  | entered _ _ _ _ _ _ _ ih => exact ih hresult
  | exhausted => cases hresult

end SheetPackages.Resolution
