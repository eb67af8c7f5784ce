import Mathlib.Tactic.Tauto
import SheetPackages.Proofs.Results
import SheetPackages.Resolution.Search

/-!
# Requirements in a search

How requirements are recorded and absorbed, and what the candidates of a provider over an index
have to do with the requirements on their package. Absorbing the requirements of a candidate either
records all of them, each satisfied by the pin of its package, or stops at one for which no
candidate is left.
-/

namespace SheetPackages.Resolution

/-- The requirements on `name`. -/
def requirementsIn (requirements : OrderedMap (List Requirement)) (name : String) :
    List Requirement :=
  (requirements.get? name).getD []

/-- The requirements that some dependencies are read as. -/
abbrev ReadAs (ds : List Dependency) (read : List Requirement) : Prop :=
  List.Forall₂ (fun d r ↦ Requirement.ofDependency d = .ok r) ds read

/-! ## Recording -/

theorem contains_record (requirements : OrderedMap (List Requirement)) (r : Requirement)
    (name : String) :
    (record requirements r).contains name = (name == r.name || requirements.contains name) :=
  OrderedMap.contains_insert _ _ _ _

theorem mem_record {requirements : OrderedMap (List Requirement)} {r x : Requirement}
    {name : String} :
    x ∈ requirementsIn (record requirements r) name ↔
      x ∈ requirementsIn requirements name ∨ x = r ∧ name = r.name := by
  unfold requirementsIn record
  rw [OrderedMap.get?_insert]
  by_cases h : name = r.name
  · subst h
    simp
  · simp [h]

theorem requirementsIn_record_self (requirements : OrderedMap (List Requirement))
    (r : Requirement) :
    requirementsIn (record requirements r) r.name = requirementsIn requirements r.name ++ [r] := by
  rw [requirementsIn, record, OrderedMap.get?_insert, if_pos rfl]
  rfl

theorem contains_recordAll {requirements : OrderedMap (List Requirement)}
    {read : List Requirement} {name : String} :
    (read.foldl record requirements).contains name = true ↔
      requirements.contains name = true ∨ ∃ r ∈ read, r.name = name := by
  induction read generalizing requirements with
  | nil => simp
  | cons r rest ih =>
    rw [List.foldl_cons, ih, contains_record]
    simp only [Bool.or_eq_true, beq_iff_eq, List.mem_cons, exists_eq_or_imp, eq_comm (a := name)]
    tauto

theorem mem_recordAll {requirements : OrderedMap (List Requirement)} {read : List Requirement}
    {x : Requirement} {name : String} :
    x ∈ requirementsIn (read.foldl record requirements) name ↔
      x ∈ requirementsIn requirements name ∨ x ∈ read ∧ x.name = name := by
  induction read generalizing requirements with
  | nil => simp
  | cons r rest ih =>
    rw [List.foldl_cons, ih, mem_record, List.mem_cons]
    constructor
    · rintro ((h | ⟨rfl, rfl⟩) | ⟨h, rfl⟩) <;> simp [*]
    · rintro (h | ⟨rfl | h, rfl⟩) <;> simp [*]

/-! ## Absorbing -/

/-- Whether `r` leaves its package a candidate, once it is among the requirements `met`. -/
def Viable (p : Provider) (pinned : OrderedMap Package) (met : OrderedMap (List Requirement))
    (r : Requirement) : Prop :=
  match pinned.get? r.name with
  | some q => r.isSatisfiedBy q = true
  | none => p.candidates r.name (requirementsIn met r.name) ≠ []

theorem absorb_cons {p : Provider} {pinned : OrderedMap Package}
    {requirements : OrderedMap (List Requirement)} {d : Dependency} {r : Requirement}
    (hr : Requirement.ofDependency d = .ok r) (rest : List Dependency) :
    (Viable p pinned (record requirements r) r ∧
      absorb p pinned requirements (d :: rest) = absorb p pinned (record requirements r) rest) ∨
    (¬Viable p pinned (record requirements r) r ∧
      absorb p pinned requirements (d :: rest) =
        .ok (.error (requirementsIn (record requirements r) r.name))) := by
  rw [absorb, hr, Viable]
  simp only [bind, Except.bind, pure, Except.pure, requirementsIn]
  cases pinned.get? r.name with
  | some q => by_cases h : r.isSatisfiedBy q = true <;> simp [h]
  | none =>
    by_cases h : p.candidates r.name (((record requirements r).get? r.name).getD []) = [] <;>
      simp [h]

/-- Absorbed requirements are all recorded, and those on a pinned package are satisfied. -/
theorem absorb_ok {p : Provider} {pinned : OrderedMap Package}
    {requirements met : OrderedMap (List Requirement)} {ds : List Dependency}
    (h : absorb p pinned requirements ds = .ok (.ok met)) :
    ∃ read, ReadAs ds read ∧ met = read.foldl record requirements ∧
      ∀ r ∈ read, ∀ q, pinned.get? r.name = some q → r.isSatisfiedBy q = true := by
  induction ds generalizing requirements with
  | nil =>
    cases h
    exact ⟨[], .nil, rfl, by simp⟩
  | cons d rest ih =>
    cases hr : Requirement.ofDependency d with
    | error fault =>
      rw [absorb, hr] at h
      cases h
    | ok r =>
      rcases absorb_cons hr rest with ⟨hviable, habs⟩ | ⟨_, habs⟩
      · rw [habs] at h
        obtain ⟨read, hread, rfl, hall⟩ := ih h
        refine ⟨r :: read, .cons hr hread, rfl, ?_⟩
        refine List.forall_mem_cons.mpr ⟨fun q hq ↦ ?_, hall⟩
        simpa only [Viable, hq] using hviable
      · rw [habs] at h
        cases h

/-- Absorbing stops at a requirement that is not viable. Those before it have been recorded, and
those of them that are on a pinned package are satisfied. -/
theorem absorb_conflict {p : Provider} {pinned : OrderedMap Package}
    {requirements : OrderedMap (List Requirement)} {ds : List Dependency}
    {causes : List Requirement} (h : absorb p pinned requirements ds = .ok (.error causes)) :
    ∃ before d after read r, ds = before ++ d :: after ∧
      ReadAs before read ∧ Requirement.ofDependency d = .ok r ∧
      causes = requirementsIn ((read ++ [r]).foldl record requirements) r.name ∧
      ¬Viable p pinned ((read ++ [r]).foldl record requirements) r ∧
      ∀ x ∈ read, ∀ q, pinned.get? x.name = some q → x.isSatisfiedBy q = true := by
  induction ds generalizing requirements with
  | nil => cases h
  | cons d rest ih =>
    cases hr : Requirement.ofDependency d with
    | error fault =>
      rw [absorb, hr] at h
      cases h
    | ok r =>
      rcases absorb_cons hr rest with ⟨hviable, habs⟩ | ⟨hviable, habs⟩
      · rw [habs] at h
        obtain ⟨before, e, after, read, x, rfl, hread, hx, hcauses, hnot, hall⟩ := ih h
        refine ⟨d :: before, e, after, r :: read, x, rfl, .cons hr hread, hx, hcauses, hnot, ?_⟩
        refine List.forall_mem_cons.mpr ⟨fun q hq ↦ ?_, hall⟩
        simpa only [Viable, hq] using hviable
      · rw [habs] at h
        cases h
        exact ⟨[], d, rest, [], r, rfl, .nil, hr, rfl, hviable, nofun⟩

theorem absorb_fault {p : Provider} {pinned : OrderedMap Package}
    {requirements : OrderedMap (List Requirement)} {ds : List Dependency} {fault : Fault}
    (h : absorb p pinned requirements ds = .error fault) :
    ∃ d ∈ ds, Requirement.ofDependency d = .error fault := by
  induction ds generalizing requirements with
  | nil => cases h
  | cons d rest ih =>
    cases hr : Requirement.ofDependency d with
    | error other =>
      rw [absorb, hr] at h
      cases h
      exact ⟨d, by simp, hr⟩
    | ok r =>
      rcases absorb_cons hr rest with ⟨_, habs⟩ | ⟨_, habs⟩
      · rw [habs] at h
        obtain ⟨e, he, hfault⟩ := ih h
        exact ⟨e, List.mem_cons_of_mem _ he, hfault⟩
      · rw [habs] at h
        cases h

end SheetPackages.Resolution
