import SheetPackages.Proofs.Resolution.Soundness

/-!
# Assignments that guide a search

An assignment of versions to package names guides a search when the assigned version of a package
stays among its candidates under all requirements that the assigned versions lead to. A state agrees
with the assignment when it holds no other requirements and no other pins. Among the candidates of
the package picked there is then the assigned version; it is neither rejected nor left out, and the
state behind it agrees with the assignment again. So no search gives up in a state that agrees with
an assignment that guides it.

Where such assignments come from, and searches that run out of rounds, are not described here.
-/

namespace SheetPackages.Resolution

/-- Along the assignment only granted requirements are met, and they leave each package the
assigned version. -/
structure Guides (i : Index) (choice : String → Option Version) (granted : Requirement → Prop) :
    Prop where
  accepts : ∀ r, granted r → ∃ v, choice r.name = some v ∧ r.range.accepts v = true
  offers : ∀ r v, granted r → choice r.name = some v →
    ∀ requirements, r ∈ requirements → (∀ x ∈ requirements, granted x) →
      { name := r.name, version := v } ∈ i.provider.candidates r.name requirements
  declares : ∀ c ds, choice c.name = some c.version → i.provider.requires c = .ok ds →
    ∀ d ∈ ds, ∀ r, Requirement.ofDependency d = .ok r → granted r

/-- All requirements are granted, and every package listed has one. -/
structure Granted (granted : Requirement → Prop) (requirements : OrderedMap (List Requirement)) :
    Prop where
  grants : ∀ name, ∀ r ∈ requirementsIn requirements name, granted r
  asked : ∀ name, requirements.contains name = true →
    ∃ r ∈ requirementsIn requirements name, r.name = name

/-- Every pinned version is the assigned one. -/
def Agreed (choice : String → Option Version) (pinned : OrderedMap Package) : Prop :=
  ∀ name q, pinned.get? name = some q → q.name = name ∧ choice name = some q.version

structure Agrees (choice : String → Option Version) (granted : Requirement → Prop) (s : State) :
    Prop where
  requirements : Granted granted s.requirements
  pinned : Agreed choice s.pinned

theorem Granted.empty (granted : Requirement → Prop) : Granted granted .empty where
  grants name r hr := by cases hr
  asked name h := by cases h

theorem Granted.recordAll {granted : Requirement → Prop}
    {requirements : OrderedMap (List Requirement)} (h : Granted granted requirements)
    {read : List Requirement} (hread : ∀ r ∈ read, granted r) :
    Granted granted (read.foldl record requirements) where
  grants name r hr := by
    rcases mem_recordAll.mp hr with hr | ⟨hr, _⟩
    · exact h.grants name r hr
    · exact hread r hr
  asked name hname := by
    rcases contains_recordAll.mp hname with hname | ⟨r, hr, rfl⟩
    · obtain ⟨r, hr, heq⟩ := h.asked name hname
      exact ⟨r, mem_recordAll.mpr (.inl hr), heq⟩
    · exact ⟨r, mem_recordAll.mpr (.inr ⟨hr, rfl⟩), rfl⟩

theorem Granted.run {granted : Requirement → Prop} {p : Provider} {s t : State}
    (h : Granted granted s.requirements) (hall : ∀ r, granted r)
    (hsteps : Relation.ReflTransGen (Step p) s t) : Granted granted t.requirements := by
  induction hsteps with
  | refl => exact h
  | tail _ hstep ih =>
    obtain ⟨_, _, _, _, _, ⟨_, habsorb⟩⟩ := hstep
    obtain ⟨read, _, rfl, _⟩ := absorb_ok habsorb
    exact ih.recordAll fun r _ ↦ hall r

theorem Agreed.pinnedWith {choice : String → Option Version} {s : State}
    (h : Agreed choice s.pinned) {c : Package} (hc : choice c.name = some c.version)
    (requirements : List Dependency) : Agreed choice (pinnedWith s c.name c requirements) := by
  intro other q hq
  rcases get?_pinnedWith hq with ⟨rfl, rfl⟩ | ⟨_, hq⟩
  · exact ⟨rfl, hc⟩
  · exact h other q hq

/-- A search for granted requirements begins in agreement. -/
theorem start_agrees_of_granted (choice : String → Option Version) {granted : Requirement → Prop}
    {read : List Requirement} (hread : ∀ r ∈ read, granted r) :
    Agrees choice granted (start read) where
  requirements := (Granted.empty granted).recordAll hread
  pinned name q hq := by cases hq

section

variable {i : Index} {choice : String → Option Version} {granted : Requirement → Prop}

/-- What an assigned version requires is granted. -/
theorem Guides.grants (h : Guides i choice granted) {c : Package} {ds part : List Dependency}
    (hc : choice c.name = some c.version) (hrequires : i.provider.requires c = .ok ds)
    {read : List Requirement} (hread : ReadAs part read) (hpart : part ⊆ ds) :
    ∀ r ∈ read, granted r := by
  intro r hr
  obtain ⟨d, hd, hofd⟩ := exists_of_mem_right hread hr
  exact h.declares c ds hc hrequires d (hpart hd) r hofd

/-- A granted requirement leaves its package the assigned version. -/
theorem Guides.viable (h : Guides i choice granted) {pinned : OrderedMap Package}
    (hpinned : Agreed choice pinned) {met : OrderedMap (List Requirement)}
    (hmet : Granted granted met) {r : Requirement}
    (hr : r ∈ requirementsIn met r.name) : Viable i.provider pinned met r := by
  have hgranted := hmet.grants _ r hr
  obtain ⟨v, hv, haccepts⟩ := h.accepts r hgranted
  rw [Viable]
  cases hget : pinned.get? r.name with
  | some q =>
    obtain ⟨hname, hq⟩ := hpinned _ _ hget
    rw [hv] at hq
    cases hq
    simp [Requirement.isSatisfiedBy, hname, haccepts]
  | none =>
    exact List.ne_nil_of_mem (h.offers r v hgranted hv _ hr (hmet.grants r.name))

/-- The assigned version of a package is never rejected. -/
theorem Agrees.not_rejects (hguides : Guides i choice granted) {s : State}
    (h : Agrees choice granted s) {c : Package} (hc : choice c.name = some c.version) :
    ¬Rejects i.provider s c.name c := by
  rintro ⟨requirements, causes, hrequires, habsorb⟩
  obtain ⟨before, d, after, read, r, rfl, hread, hr, _, hnot, _⟩ := absorb_conflict habsorb
  have hread : ReadAs (before ++ [d]) (read ++ [r]) := List.rel_append hread (.cons hr .nil)
  have hgranted := hguides.grants hc hrequires hread (by simp)
  apply hnot
  refine hguides.viable (h.pinned.pinnedWith hc _) (h.requirements.recordAll hgranted) ?_
  exact mem_recordAll.mpr (.inr ⟨by simp, rfl⟩)

/-- Pinning the assigned version of a package keeps the agreement. -/
theorem Agrees.pin (hguides : Guides i choice granted) {s t : State}
    (h : Agrees choice granted s) {c : Package} (hc : choice c.name = some c.version)
    (hpins : Pins i.provider s c.name c t) : Agrees choice granted t := by
  obtain @⟨requirements, met, hrequires, habsorb⟩ := hpins
  obtain ⟨read, hread, rfl, _⟩ := absorb_ok habsorb
  have hgranted := hguides.grants hc hrequires hread (List.Subset.refl _)
  exact ⟨h.requirements.recordAll hgranted, h.pinned.pinnedWith hc requirements⟩

/-- The assigned version of the picked package is among its candidates. -/
theorem Agrees.mem_picked (hguides : Guides i choice granted) {s : State}
    (h : Agrees choice granted s) {name : String} {found : List Package}
    (hpick : pick i.provider s = some (name, found)) :
    ∃ c ∈ found, c.name = name ∧ choice c.name = some c.version := by
  obtain ⟨r, hr, rfl⟩ := h.requirements.asked name (pick_required hpick)
  have hgrants := h.requirements.grants r.name
  obtain ⟨v, hv, _⟩ := hguides.accepts r (hgrants r hr)
  obtain ⟨_, rfl⟩ := pick_spec hpick
  refine ⟨{ name := r.name, version := v }, ?_, rfl, hv⟩
  exact hguides.offers r v (hgrants r hr) hv _ hr hgrants

/-- A search that gives up began in a state that agrees with no assignment that guides it. -/
theorem Explored.not_agrees (hguides : Guides i choice granted) {s : State}
    {result : Except Fault (Option State)} (h : Explored i.provider s result)
    (hresult : result = .ok none) : ¬Agrees choice granted s := by
  induction h with
  | finished => cases hresult
  | outOfRounds => cases hresult
  | failed => cases hresult
  | entered _ _ _ _ _ hne _ => exact absurd hresult hne
  | exhausted hpick htried _ ih =>
    intro hagrees
    obtain ⟨c, hmem, rfl, hc⟩ := hagrees.mem_picked hguides hpick
    rcases htried c hmem with hrejects | ⟨t, hpins⟩
    · exact hagrees.not_rejects hguides hc hrejects
    · exact ih c hmem t hpins rfl (hagrees.pin hguides hc hpins)

end

end SheetPackages.Resolution
