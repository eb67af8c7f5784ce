import SheetPackages.Proofs.Resolution.Candidates
import SheetPackages.Proofs.Resolution.Exploration
import SheetPackages.Proofs.Resolution.Requirements

/-!
# Soundness of resolutions

The packages of a finished resolution are a solution: every requirement, of the roots and of each
chosen version, is met by the one chosen version of its package. They are also needed: each is
reached from a root through requirements of chosen versions, so nothing stays behind from a branch
that was given up.

The invariant of the search holds in every state that pins reach. It ties each pin to the
requirements recorded so far, whether these were met before the pin or after it.
-/

namespace SheetPackages.Resolution

open Relation (ReflTransGen)

/-! ## Solutions -/

/-- The package that a requirement asks for is chosen, at a version that its range accepts. -/
def Met (packages : List Package) (d : Dependency) : Prop :=
  ∃ range, d.range = .ok range ∧ ∃ q ∈ packages, q.name = d.name ∧ range.accepts q.version = true

/-- The index lists a requirement for the version of a package. -/
def Declares (i : Index) (q : Package) (d : Dependency) : Prop :=
  ∃ release, i.release q.name q.version = .ok release ∧
    ∃ text ∈ release.dependencies, Dependency.parse text = .ok d

/-- The chosen version of the package `a` requires the package `b`. -/
def Leads (i : Index) (packages : List Package) (a b : String) : Prop :=
  ∃ q ∈ packages, q.name = a ∧ ∃ d, Declares i q d ∧ d.name = b

/-- Chosen packages that meet the roots and each other's requirements, and no others. -/
structure Solves (i : Index) (roots : List Dependency) (packages : List Package) : Prop where
  nodup : (packages.map Package.name).Nodup
  published : ∀ q ∈ packages, q.version ∈ i.versions q.name
  roots_met : ∀ d ∈ roots, Met packages d
  declared_met : ∀ q ∈ packages, ∃ release, i.release q.name q.version = .ok release ∧
    ∀ text ∈ release.dependencies, ∃ d, Dependency.parse text = .ok d ∧ Met packages d
  reachable : ∀ q ∈ packages, ∃ d ∈ roots, ReflTransGen (Leads i packages) d.name q.name

/-- Without roots nothing is chosen. -/
theorem Solves.empty (i : Index) : Solves i [] [] := by
  constructor <;> simp

theorem Leads.mono {i : Index} {packages more : List Package} (h : ∀ q ∈ packages, q ∈ more)
    {a b : String} (hleads : Leads i packages a b) : Leads i more a b := by
  obtain ⟨q, hq, hname, hdeclares⟩ := hleads
  exact ⟨q, h q hq, hname, hdeclares⟩

/-! ## Requirements as the search sees them -/

theorem ofDependency_eq_ok_iff {d : Dependency} {r : Requirement} :
    Requirement.ofDependency d = .ok r ↔ r.dependency = d ∧ d.range = .ok r.range := by
  unfold Requirement.ofDependency
  obtain ⟨dependency, range⟩ := r
  cases hd : d.range with
  | ok other => simp [pure, Except.pure, eq_comm]
  | error flaw => simp [throw, throwThe, MonadExceptOf.throw]

theorem name_of_ofDependency {d : Dependency} {r : Requirement}
    (h : Requirement.ofDependency d = .ok r) : r.name = d.name := by
  rw [Requirement.name, (ofDependency_eq_ok_iff.mp h).1]

theorem read_eq_ok_iff {text : String} {d : Dependency} :
    Dependency.read text = .ok d ↔ Dependency.parse text = .ok d := by
  unfold Dependency.read
  cases Dependency.parse text <;> simp [Except.mapError]

/-- What a candidate requires is what the index lists for its version. -/
theorem requires_eq_ok_iff {i : Index} {c : Package} {ds : List Dependency} :
    i.provider.requires c = .ok ds ↔ ∃ release, i.release c.name c.version = .ok release ∧
      List.Forall₂ (fun text d ↦ Dependency.parse text = .ok d) release.dependencies ds := by
  simp only [Index.provider, Index.declared, Dependency.readAll]
  cases i.release c.name c.version with
  | error fault => simp [Except.map, bind, Except.bind]
  | ok release =>
    simp only [Except.map, bind, Except.bind, mapM_eq_ok_iff, read_eq_ok_iff, Except.ok.injEq,
      exists_eq_left']

theorem pick_required {p : Provider} {s : State} {name : String} {found : List Package}
    (h : pick p s = some (name, found)) : s.requirements.contains name = true := by
  rcases pickFrom_spec h with h' | ⟨hmem, _⟩
  · cases h'
  · exact OrderedMap.mem_keys_iff_contains.mp (List.mem_filter.mp hmem).1

/-! ## The invariant -/

/-- What holds in every state of a search for `roots`. -/
structure Sound (i : Index) (roots : List Requirement) (s : State) : Prop where
  own : ∀ name, ∀ r ∈ requirementsIn s.requirements name, r.name = name
  rooted : ∀ r ∈ roots, r ∈ requirementsIn s.requirements r.name
  pinned : ∀ name q, s.pinned.get? name = some q → q.name = name ∧ q.version ∈ i.versions name
  satisfied : ∀ name q, s.pinned.get? name = some q →
    ∀ r ∈ requirementsIn s.requirements name, r.range.accepts q.version = true
  declared : ∀ name q, s.pinned.get? name = some q →
    ∃ release, i.release q.name q.version = .ok release ∧ ∀ text ∈ release.dependencies,
      ∃ d r, Dependency.parse text = .ok d ∧ Requirement.ofDependency d = .ok r ∧
        r ∈ requirementsIn s.requirements d.name
  required : ∀ name, s.pinned.contains name = true → s.requirements.contains name = true
  reachable : ∀ name, s.requirements.contains name = true →
    ∃ r ∈ roots, ReflTransGen (Leads i s.pinned.values) r.name name

/-- The state in which a search begins. -/
def start (roots : List Requirement) : State :=
  ⟨roots.foldl record .empty, .empty⟩

theorem start_sound (i : Index) (roots : List Requirement) : Sound i roots (start roots) where
  own name r hr := by
    rcases mem_recordAll.mp hr with h | ⟨_, h⟩
    · cases h
    · exact h
  rooted r hr := mem_recordAll.mpr (.inr ⟨hr, rfl⟩)
  pinned name q h := by cases h
  satisfied name q h := by cases h
  declared name q h := by cases h
  required name h := by cases h
  reachable name h := by
    rcases contains_recordAll.mp h with h | ⟨r, hr, rfl⟩
    · cases h
    · exact ⟨r, hr, .refl⟩

/-- A pin on a package without one leaves all other pins. -/
theorem mem_values_pinnedWith {s : State} {name : String} {c : Package}
    {requirements : List Dependency} (hfree : s.pinned.contains name = false) :
    ∀ q ∈ s.pinned.values, q ∈ (pinnedWith s name c requirements).values := by
  intro q hq
  obtain ⟨other, hother⟩ := OrderedMap.mem_values_iff.mp hq
  refine OrderedMap.mem_values_iff.mpr ⟨other, ?_⟩
  rw [pinnedWith, OrderedMap.get?_insert, if_neg, hother]
  rintro rfl
  rw [OrderedMap.contains_eq_false_iff, hother] at hfree
  cases hfree

theorem get?_pinnedWith {s : State} {name other : String} {c q : Package}
    {requirements : List Dependency}
    (h : (pinnedWith s name c requirements).get? other = some q) :
    other = name ∧ q = settled c requirements ∨ other ≠ name ∧ s.pinned.get? other = some q := by
  rw [pinnedWith, OrderedMap.get?_insert] at h
  split at h
  · next heq =>
    cases h
    exact .inl ⟨heq, rfl⟩
  · next hne => exact .inr ⟨hne, h⟩

section

variable {i : Index} {roots : List Requirement} {s : State} {name other : String} {c q : Package}
  {requirements : List Dependency}

/-- Pins are published versions of their packages, that of a candidate included. -/
theorem Sound.pinned_pinnedWith (h : Sound i roots s)
    (hmem : c ∈ i.provider.candidates name (s.requirementsOn name))
    (hq : (pinnedWith s name c requirements).get? other = some q) :
    q.name = other ∧ q.version ∈ i.versions other := by
  obtain ⟨hname, hversion, _⟩ := Index.of_mem_candidates hmem
  rcases get?_pinnedWith hq with ⟨rfl, rfl⟩ | ⟨_, hq⟩
  · exact ⟨hname, hversion⟩
  · exact h.pinned other q hq

/-- Pins meet what was required of them before, that of a candidate included, and what has been
absorbed since. -/
theorem Sound.satisfied_pinnedWith (h : Sound i roots s)
    (hmem : c ∈ i.provider.candidates name (s.requirementsOn name)) {read : List Requirement}
    (hread : ∀ r ∈ read, ∀ q, (pinnedWith s name c requirements).get? r.name = some q →
      r.isSatisfiedBy q = true)
    (hq : (pinnedWith s name c requirements).get? other = some q) :
    ∀ r ∈ requirementsIn (read.foldl record s.requirements) other,
      r.range.accepts q.version = true := by
  intro r hr
  rcases mem_recordAll.mp hr with hold | ⟨hnew, rfl⟩
  · rcases get?_pinnedWith hq with ⟨rfl, rfl⟩ | ⟨_, hq⟩
    · exact (Index.of_mem_candidates hmem).2.2 r hold (h.own other r hold)
    · exact h.satisfied other q hq r hold
  · have := hread r hnew q hq
    simp only [Requirement.isSatisfiedBy, Bool.and_eq_true] at this
    exact this.2

end

/-- The invariant is kept by every pin of a candidate of the picked package. -/
theorem Sound.step {i : Index} {roots : List Requirement} {s t : State} (h : Sound i roots s)
    (hstep : Step i.provider s t) : Sound i roots t := by
  obtain ⟨name, found, c, hpick, hmem, hpins⟩ := hstep
  obtain ⟨hfree, rfl⟩ := pick_spec hpick
  have hname : c.name = name := (Index.of_mem_candidates hmem).1
  obtain @⟨requirements, met, hrequires, habsorb⟩ := hpins
  obtain ⟨release, hrelease, htexts⟩ := requires_eq_ok_iff.mp hrequires
  obtain ⟨read, hread, rfl, hsatisfied⟩ := absorb_ok habsorb
  have hmono : ReflTransGen (Leads i s.pinned.values) ≤
      ReflTransGen (Leads i (pinnedWith s name c requirements).values) :=
    ReflTransGen.mono fun _ _ ↦ Leads.mono (mem_values_pinnedWith hfree)
  constructor
  case own =>
    intro other r hr
    exact (mem_recordAll.mp hr).elim (h.own other r) And.right
  case rooted => exact fun r hr ↦ mem_recordAll.mpr (.inl (h.rooted r hr))
  case pinned => exact fun other q hq ↦ h.pinned_pinnedWith hmem hq
  case satisfied => exact fun other q hq ↦ h.satisfied_pinnedWith hmem hsatisfied hq
  case declared =>
    intro other q hq
    rcases get?_pinnedWith hq with ⟨rfl, rfl⟩ | ⟨_, hq⟩
    · refine ⟨release, hrelease, fun text htext ↦ ?_⟩
      obtain ⟨d, hd, hparse⟩ := exists_of_mem_left htexts htext
      obtain ⟨r, hr, hofd⟩ := exists_of_mem_left hread hd
      exact ⟨d, r, hparse, hofd, mem_recordAll.mpr (.inr ⟨hr, name_of_ofDependency hofd⟩)⟩
    · obtain ⟨release, hrelease, hall⟩ := h.declared other q hq
      refine ⟨release, hrelease, fun text htext ↦ ?_⟩
      obtain ⟨d, r, hd, hr, hrec⟩ := hall text htext
      exact ⟨d, r, hd, hr, mem_recordAll.mpr (.inl hrec)⟩
  case required =>
    intro other hother
    rw [pinnedWith, OrderedMap.contains_insert] at hother
    refine contains_recordAll.mpr (.inl ?_)
    rcases Bool.or_eq_true_iff.mp hother with heq | hother
    · rw [beq_iff_eq.mp heq]
      exact pick_required hpick
    · exact h.required other hother
  case reachable =>
    intro other hother
    rcases contains_recordAll.mp hother with hother | ⟨r, hr, rfl⟩
    · obtain ⟨root, hroot, hreach⟩ := h.reachable other hother
      exact ⟨root, hroot, hmono _ _ hreach⟩
    · -- What the new pin requires is reached by way of its package.
      obtain ⟨root, hroot, hreach⟩ := h.reachable name (pick_required hpick)
      obtain ⟨d, hd, hofd⟩ := exists_of_mem_right hread hr
      obtain ⟨text, htext, hparse⟩ := exists_of_mem_right htexts hd
      refine ⟨root, hroot, (hmono _ _ hreach).tail ⟨settled c requirements, ?_, hname, d, ?_, ?_⟩⟩
      · exact OrderedMap.mem_values_iff.mpr ⟨name, by simp [pinnedWith, OrderedMap.get?_insert]⟩
      · exact ⟨release, hrelease, text, htext, hparse⟩
      · exact (name_of_ofDependency hofd).symm

theorem Sound.run {i : Index} {roots : List Requirement} {s t : State} (h : Sound i roots s)
    (hsteps : ReflTransGen (Step i.provider) s t) : Sound i roots t := by
  induction hsteps with
  | refl => exact h
  | tail _ hstep ih => exact ih.step hstep

/-! ## Finished searches -/

theorem Sound.map_name_values {i : Index} {roots : List Requirement} {s : State}
    (h : Sound i roots s) : s.pinned.values.map Package.name = s.pinned.keys := by
  unfold OrderedMap.values OrderedMap.keys
  rw [List.map_map]
  refine List.map_congr_left fun entry hentry ↦ ?_
  exact (h.pinned entry.1 entry.2 (OrderedMap.get?_eq_some_iff.mpr hentry)).1

/-- In a finished state every package with a requirement is pinned. -/
theorem exists_pin {p : Provider} {s : State} (hdone : pick p s = none) {name : String}
    {r : Requirement} (hrec : r ∈ requirementsIn s.requirements name) :
    ∃ q, s.pinned.get? name = some q := by
  have hrequired : s.requirements.contains name = true := by
    rw [requirementsIn] at hrec
    cases hget : s.requirements.get? name with
    | none => simp [hget] at hrec
    | some _ => simp [OrderedMap.contains, hget]
  refine Option.isSome_iff_exists.mp ?_
  by_contra hfree
  have hopen : name ∈ s.unresolved :=
    List.mem_filter.mpr ⟨OrderedMap.mem_keys_iff_contains.mpr hrequired,
      by simpa [OrderedMap.contains] using hfree⟩
  rw [unresolved_eq_nil hdone] at hopen
  exact List.not_mem_nil hopen

/-- In a finished state a recorded requirement is met. -/
theorem Sound.met {i : Index} {roots : List Requirement} {s : State} (h : Sound i roots s)
    (hdone : pick i.provider s = none) {d : Dependency} {r : Requirement}
    (hr : Requirement.ofDependency d = .ok r) (hrec : r ∈ requirementsIn s.requirements d.name) :
    Met s.pinned.values d := by
  refine ⟨r.range, (ofDependency_eq_ok_iff.mp hr).2, ?_⟩
  obtain ⟨q, hq⟩ := exists_pin hdone hrec
  refine ⟨q, OrderedMap.mem_values_iff.mpr ⟨_, hq⟩, (h.pinned _ q hq).1, ?_⟩
  exact h.satisfied _ q hq r hrec

/-- A finished state holds a solution. -/
theorem Sound.solves {i : Index} {roots : List Dependency} {read : List Requirement} {s : State}
    (hread : ReadAs roots read) (h : Sound i read s) (hdone : pick i.provider s = none) :
    Solves i roots s.pinned.values where
  nodup := by
    rw [h.map_name_values]
    exact s.pinned.nodup
  published q hq := by
    obtain ⟨name, hget⟩ := OrderedMap.mem_values_iff.mp hq
    obtain ⟨rfl, hversion⟩ := h.pinned name q hget
    exact hversion
  roots_met d hd := by
    obtain ⟨r, hr, hofd⟩ := exists_of_mem_left hread hd
    exact h.met hdone hofd (name_of_ofDependency hofd ▸ h.rooted r hr)
  declared_met q hq := by
    obtain ⟨name, hget⟩ := OrderedMap.mem_values_iff.mp hq
    obtain ⟨release, hrelease, hall⟩ := h.declared name q hget
    refine ⟨release, hrelease, fun text htext ↦ ?_⟩
    obtain ⟨d, r, hparse, hofd, hrec⟩ := hall text htext
    exact ⟨d, hparse, h.met hdone hofd hrec⟩
  reachable q hq := by
    obtain ⟨name, hget⟩ := OrderedMap.mem_values_iff.mp hq
    obtain ⟨rfl, _⟩ := h.pinned name q hget
    have hcontains : s.pinned.contains q.name = true := by simp [OrderedMap.contains, hget]
    obtain ⟨r, hr, hreach⟩ := h.reachable q.name (h.required _ hcontains)
    obtain ⟨d, hd, hofd⟩ := exists_of_mem_right hread hr
    exact ⟨d, hd, name_of_ofDependency hofd ▸ hreach⟩

/-- What a resolution reports of the end of its search. -/
def conclude (read : List Requirement) : Option State × Progress → Except Fault Outcome
  | (some s, progress) => .ok ⟨s.pinned.values, progress.rounds, progress.backtracks⟩
  | (none, progress) =>
    let causes := if progress.causes = [] then read else progress.causes
    .error (.unsatisfiable (causes.map (·.dependency)))

theorem resolve_of_readAs {p : Provider} {roots : List Dependency} {read : List Requirement}
    (h : ReadAs roots read) (limit : Option Nat) :
    resolve p limit roots = search p limit (start read) {} >>= conclude read := by
  rw [resolve, mapM_eq_ok_iff.mpr h, start]
  simp only [bind, Except.bind]
  rcases search p limit ⟨read.foldl record .empty, .empty⟩ {} with
    fault | ⟨_ | s, progress⟩ <;> rfl

theorem resolve_of_unreadable {p : Provider} {roots : List Dependency} {fault : Fault}
    (h : roots.mapM Requirement.ofDependency = .error fault) (limit : Option Nat) :
    resolve p limit roots = .error fault := by
  rw [resolve, h]
  rfl

/-- How a resolution ends: with a root that cannot be read, or as an exploration ends that begins
with the requirements of the roots. -/
inductive Ended (p : Provider) (roots : List Dependency) : Except Fault Outcome → Prop
  | unreadable {d : Dependency} {fault : Fault} (hroot : d ∈ roots)
    (hfault : Requirement.ofDependency d = .error fault) : Ended p roots (.error fault)
  | failed {read : List Requirement} {fault : Fault} (hread : ReadAs roots read)
    (hexplored : Explored p (start read) (.error fault)) : Ended p roots (.error fault)
  | unsatisfiable {read : List Requirement} {causes : List Dependency} (hread : ReadAs roots read)
    (hexplored : Explored p (start read) (.ok none)) : Ended p roots (.error (.unsatisfiable causes))
  | solved {read : List Requirement} {s : State} {outcome : Outcome} (hread : ReadAs roots read)
    (hexplored : Explored p (start read) (.ok (some s)))
    (hpackages : outcome.packages = s.pinned.values) : Ended p roots (.ok outcome)

theorem resolve_ended (p : Provider) (limit : Option Nat) (roots : List Dependency) :
    Ended p roots (resolve p limit roots) := by
  cases hread : roots.mapM Requirement.ofDependency with
  | error fault =>
    obtain ⟨d, hroot, hfault⟩ := exists_of_mapM_eq_error hread
    exact resolve_of_unreadable hread limit ▸ .unreadable hroot hfault
  | ok read =>
    have hroots : ReadAs roots read := mapM_eq_ok_iff.mp hread
    have hexplored := search_explored p limit (start read) {}
    rw [resolve_of_readAs hroots]
    rcases hs : search p limit (start read) {} with fault | ⟨_ | s, progress⟩ <;>
      rw [hs] at hexplored
    · exact .failed hroots hexplored
    · exact .unsatisfiable hroots hexplored
    · exact .solved hroots hexplored rfl

/-- A resolution that succeeds holds the pins of the state in which its exploration finishes. -/
theorem explored_of_resolve {i : Index} {limit : Option Nat} {roots : List Dependency}
    {outcome : Outcome} (h : resolve i.provider limit roots = .ok outcome) :
    ∃ read s, ReadAs roots read ∧ outcome.packages = s.pinned.values ∧
      Explored i.provider (start read) (.ok (some s)) := by
  have hended := resolve_ended i.provider limit roots
  rw [h] at hended
  obtain _ | _ | _ | @⟨read, s, _, hread, hexplored, hpackages⟩ := hended
  exact ⟨read, s, hread, hpackages, hexplored⟩

/-- The invariant holds in this state. -/
theorem sound_of_resolve {i : Index} {limit : Option Nat} {roots : List Dependency}
    {outcome : Outcome} (h : resolve i.provider limit roots = .ok outcome) :
    ∃ read s, ReadAs roots read ∧ outcome.packages = s.pinned.values ∧ Sound i read s ∧
      pick i.provider s = none := by
  obtain ⟨read, s, hread, hpackages, hexplored⟩ := explored_of_resolve h
  obtain ⟨hsteps, hdone⟩ := hexplored.reaches rfl
  exact ⟨read, s, hread, hpackages, (start_sound i read).run hsteps, hdone⟩

/-- Whatever a resolution finds, under any limit, is a solution. -/
theorem resolve_solves (i : Index) (limit : Option Nat) (roots : List Dependency)
    (outcome : Outcome) (h : resolve i.provider limit roots = .ok outcome) :
    Solves i roots outcome.packages := by
  obtain ⟨read, s, hread, hpackages, hsound, hdone⟩ := sound_of_resolve h
  rw [hpackages]
  exact hsound.solves hread hdone

/-- The newest application needs a package that is gone; the older one and its library need each
other. -/
def cyclicIndex : Index where
  packages := .ofList [
    ("app", { versions := .ofList [
      ("1.0.0", { dependencies := ["lib>=1"] }),
      ("2.0.0", { dependencies := ["lib>=2", "gone"] })] }),
    ("lib", { versions := .ofList [
      ("1.0.0", {}),
      ("2.0.0", { dependencies := ["app"] })] })]

theorem resolve_cyclicIndex : ∃ outcome,
    resolve cyclicIndex.provider (some 3) [⟨"app", "<3"⟩] = .ok outcome ∧
      outcome.packages.map (fun q ↦ (q.name, q.version.text)) =
        [("app", "1.0.0"), ("lib", "2.0.0")] ∧
      Solves cyclicIndex [⟨"app", "<3"⟩] outcome.packages := by
  have heval : (resolve cyclicIndex.provider (some 3) [⟨"app", "<3"⟩]).toOption.map
      (fun outcome ↦ outcome.packages.map fun q ↦ (q.name, q.version.text)) =
        some [("app", "1.0.0"), ("lib", "2.0.0")] := by
    rw [resolve_eq_resolveWithin]
    decide +kernel
  cases h : resolve cyclicIndex.provider (some 3) [⟨"app", "<3"⟩] with
  | error fault =>
    rw [h] at heval
    cases heval
  | ok outcome =>
    rw [h] at heval
    exact ⟨outcome, rfl, Option.some.inj heval, resolve_solves _ _ _ _ h⟩

end SheetPackages.Resolution
