import SheetPackages.Proofs.Resolution.Guidance

/-!
# Completeness of resolutions

When a resolution reports that its requirements cannot be satisfied, nothing satisfies them: no
assignment of published versions to package names meets all roots and everything that the assigned
versions declare. Versions must be stable and of different precedence within a package, since a
prerelease is not offered beside a stable version, nor a version beside one of equal precedence.

In such an index an assignment that meets all requirements guides the search, which therefore does
not give up. Resolutions that run out of rounds are not described here.
-/

namespace SheetPackages.Resolution

/-! ## Assignments -/

/-- The requirement is read, and accepts the version assigned to its package. -/
def Holds (choice : String → Option Version) (d : Dependency) : Prop :=
  ∃ range v, d.range = .ok range ∧ choice d.name = some v ∧ range.accepts v = true

/-- Published versions that meet the roots and each other's declared requirements. -/
structure Satisfies (i : Index) (roots : List Dependency) (choice : String → Option Version) :
    Prop where
  published : ∀ name v, choice name = some v → v ∈ i.versions name
  roots_hold : ∀ d ∈ roots, Holds choice d
  declared_hold : ∀ name v, choice name = some v → ∃ release, i.release name v = .ok release ∧
    ∀ text ∈ release.dependencies, ∃ d, Dependency.parse text = .ok d ∧ Holds choice d

/-- The assigned version of the required package is accepted. -/
def Grants (choice : String → Option Version) (r : Requirement) : Prop :=
  ∃ v, choice r.name = some v ∧ r.range.accepts v = true

theorem Holds.grants {choice : String → Option Version} {d : Dependency} {r : Requirement}
    (h : Holds choice d) (hr : Requirement.ofDependency d = .ok r) : Grants choice r := by
  obtain ⟨range, v, hrange, hv, haccepts⟩ := h
  have hread := (ofDependency_eq_ok_iff.mp hr).2
  rw [hrange] at hread
  cases hread
  exact ⟨v, name_of_ofDependency hr ▸ hv, haccepts⟩

/-- What an assigned version requires holds. -/
theorem Satisfies.requires_hold {i : Index} {roots : List Dependency}
    {choice : String → Option Version} (h : Satisfies i roots choice) {c : Package}
    {ds : List Dependency} (hc : choice c.name = some c.version)
    (hrequires : i.provider.requires c = .ok ds) : ∀ d ∈ ds, Holds choice d := by
  intro d hd
  obtain ⟨release, hrelease, htexts⟩ := requires_eq_ok_iff.mp hrequires
  obtain ⟨text, htext, hparse⟩ := exists_of_mem_right htexts hd
  obtain ⟨release', hrelease', hall⟩ := h.declared_hold _ _ hc
  rw [hrelease] at hrelease'
  cases hrelease'
  obtain ⟨d', hparse', hholds⟩ := hall text htext
  rw [hparse] at hparse'
  cases hparse'
  exact hholds

/-- Among stable versions of different precedence, an assignment that meets all requirements
guides the search for them. -/
theorem Satisfies.guides {i : Index} (hplain : ∀ name, i.Plain name) {roots : List Dependency}
    {choice : String → Option Version} (h : Satisfies i roots choice) :
    Guides i choice (Grants choice) where
  accepts r hr := hr
  offers r v _ hv requirements _ hgrants := by
    refine (hplain r.name).mem_candidates (h.published _ _ hv) fun x hx hname ↦ ?_
    obtain ⟨w, hw, haccepts⟩ := hgrants x hx
    rw [hname, hv] at hw
    cases hw
    exact haccepts
  declares c ds hc hrequires d hd r hr := (h.requires_hold hc hrequires d hd).grants hr

/-- The search for the roots begins in agreement with it. -/
theorem Satisfies.start_agrees {i : Index} {roots : List Dependency}
    {choice : String → Option Version} (h : Satisfies i roots choice) {read : List Requirement}
    (hread : ReadAs roots read) : Agrees choice (Grants choice) (start read) := by
  refine start_agrees_of_granted choice fun r hr ↦ ?_
  obtain ⟨d, hd, hofd⟩ := exists_of_mem_right hread hr
  exact (h.roots_hold d hd).grants hofd

/-! ## What a resolution reports -/

theorem ofDependency_fault {d : Dependency} {fault : Fault}
    (h : Requirement.ofDependency d = .error fault) :
    ∃ reason, fault = .invalidRequirement d.text reason := by
  unfold Requirement.ofDependency at h
  split at h
  · cases h
  · next flaw _ =>
    cases h
    exact ⟨flaw.message, rfl⟩

theorem read_fault {text : String} {fault : Fault} (h : Dependency.read text = .error fault) :
    ∃ input reason, fault = .invalidRequirement input reason := by
  unfold Dependency.read at h
  cases hparse : Dependency.parse text with
  | ok d => simp [hparse, Except.mapError] at h
  | error nameless =>
    rw [hparse] at h
    cases h
    exact ⟨_, _, rfl⟩

/-- Without its requirements, a candidate of an index is unknown or declares an unreadable text. -/
theorem requires_fault {i : Index} {c : Package} {fault : Fault}
    (h : i.provider.requires c = .error fault) :
    i.release c.name c.version = .error fault ∨
      ∃ release, i.release c.name c.version = .ok release ∧
        ∃ text ∈ release.dependencies, Dependency.read text = .error fault := by
  simp only [Index.provider, Index.declared, Dependency.readAll] at h
  cases hrelease : i.release c.name c.version with
  | error other =>
    rw [hrelease] at h
    cases h
    exact .inl rfl
  | ok release =>
    simp only [hrelease, Except.map, bind, Except.bind] at h
    exact .inr ⟨release, rfl, exists_of_mapM_eq_error h⟩

theorem release_fault {i : Index} {name : String} {v : Version} {fault : Fault}
    (h : i.release name v = .error fault) :
    fault = .packageNotFound name ∨ fault = .versionNotFound name v.text := by
  unfold Index.release at h
  split at h
  · cases h
    exact .inl rfl
  · split at h
    · cases h
    · cases h
      exact .inr rfl

/-- A candidate of an index fails because it is not listed or because of a text that is no
requirement. -/
theorem Fails.fault_cases {i : Index} {s : State} {name : String} {c : Package} {fault : Fault}
    (h : Fails i.provider s name c fault) :
    fault = .packageNotFound c.name ∨ fault = .versionNotFound c.name c.version.text ∨
      ∃ input reason, fault = .invalidRequirement input reason := by
  rcases h with hrequires | ⟨requirements, _, habsorb⟩
  · rcases requires_fault hrequires with hrelease | ⟨_, _, _, _, hread⟩
    · exact (release_fault hrelease).imp_right .inl
    · exact .inr (.inr (read_fault hread))
  · obtain ⟨d, _, hd⟩ := absorb_fault habsorb
    obtain ⟨reason, heq⟩ := ofDependency_fault hd
    exact .inr (.inr ⟨_, reason, heq⟩)

/-- No candidate of an index fails as unsatisfiable. -/
theorem Fails.ne_unsatisfiable {i : Index} {s : State} {name : String} {c : Package}
    {fault : Fault} (h : Fails i.provider s name c fault) (causes : List Dependency) :
    fault ≠ .unsatisfiable causes := by
  rcases h.fault_cases with rfl | rfl | ⟨_, _, rfl⟩ <;> exact nofun

/-- Unsatisfiable requirements are reported only when a search ends with nothing. -/
theorem search_of_unsatisfiable {i : Index} {limit : Option Nat} {roots causes : List Dependency}
    (h : resolve i.provider limit roots = .error (.unsatisfiable causes)) :
    ∃ read ended, ReadAs roots read ∧
      search i.provider limit (start read) {} = .ok (none, ended) ∧
      causes = (if ended.causes = [] then read else ended.causes).map (·.dependency) := by
  cases hread : roots.mapM Requirement.ofDependency with
  | error fault =>
    rw [resolve_of_unreadable hread] at h
    cases h
    obtain ⟨d, _, hfault⟩ := exists_of_mapM_eq_error hread
    obtain ⟨reason, heq⟩ := ofDependency_fault hfault
    cases heq
  | ok read =>
    have hroots : ReadAs roots read := mapM_eq_ok_iff.mp hread
    have hexplored := search_explored i.provider limit (start read) {}
    rw [resolve_of_readAs hroots] at h
    rcases hs : search i.provider limit (start read) {} with fault | ⟨_ | s, ended⟩ <;>
      rw [hs] at h hexplored
    · cases h
      rcases hexplored.fault rfl with ⟨_, heq⟩ | ⟨_, _, _, _, _, _, hfails⟩
      · cases heq
      · exact absurd rfl (hfails.ne_unsatisfiable causes)
    · cases h
      exact ⟨read, ended, hroots, hs, rfl⟩
    · cases h

/-- Requirements reported as unsatisfiable have no solution among the published versions. -/
theorem no_assignment_of_unsatisfiable (i : Index) (hplain : ∀ name, i.Plain name)
    (limit : Option Nat) (roots causes : List Dependency)
    (h : resolve i.provider limit roots = .error (.unsatisfiable causes)) :
    ¬∃ choice, Satisfies i roots choice := by
  rintro ⟨choice, hsat⟩
  obtain ⟨read, ended, hread, hsearch, _⟩ := search_of_unsatisfiable h
  have hexplored := search_explored i.provider limit (start read) {}
  rw [hsearch] at hexplored
  exact hexplored.not_agrees (hsat.guides hplain) rfl (hsat.start_agrees hread)

/-- Two packages which no version of their common library suits, and one that has a choice. -/
def conflictingIndex : Index where
  packages := .ofList [
    ("app", { versions := .ofList [
      ("1.0.0", { dependencies := ["left", "right", "free"] })] }),
    ("left", { versions := .ofList [
      ("1.0.0", { dependencies := ["base<2"] }),
      ("1.1.0", { dependencies := ["base>=1, <3"] })] }),
    ("right", { versions := .ofList [("1.0.0", { dependencies := ["base>=3"] })] }),
    ("free", { versions := .ofList [("1.0.0", {}), ("2.0.0", {})] }),
    ("base", { versions := .ofList [("1.0.0", {}), ("2.0.0", {}), ("3.0.0", {})] })]

theorem resolve_conflictingIndex :
    (∀ name, conflictingIndex.Plain name) ∧
      resolve conflictingIndex.provider (some 20) [⟨"app", ""⟩] =
        .error (.unsatisfiable [⟨"base", ">=3"⟩, ⟨"base", "<2"⟩]) ∧
      ¬∃ choice, Satisfies conflictingIndex [⟨"app", ""⟩] choice := by
  have hplain : ∀ name, conflictingIndex.Plain name :=
    Index.plain_of_listings (by decide +kernel)
  have heval : (resolve conflictingIndex.provider (some 20) [⟨"app", ""⟩]).map (fun _ ↦ ()) =
      .error (.unsatisfiable [⟨"base", ">=3"⟩, ⟨"base", "<2"⟩]) := by
    rw [resolve_eq_resolveWithin]
    decide +kernel
  cases h : resolve conflictingIndex.provider (some 20) [⟨"app", ""⟩] with
  | ok outcome =>
    rw [h] at heval
    cases heval
  | error fault =>
    rw [h] at heval
    cases heval
    exact ⟨hplain, rfl, no_assignment_of_unsatisfiable _ hplain _ _ _ h⟩

end SheetPackages.Resolution
