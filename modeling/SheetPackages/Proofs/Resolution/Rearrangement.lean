import SheetPackages.Proofs.Resolution.Completeness

/-!
# The order of requirements

Ties between packages with equally few candidates go to the one required first, so the order of the
roots decides which solution is found. It can also decide whether one is found: a stable version
that is pinned early hides the prerelease that a later requirement needs. This is the only way.
Where stable versions suffice for a package whenever one of them meets a requirement on it, a
resolution that succeeds guides the search for the same roots in any other order, and this search
does not give up.

Resolutions that run out of rounds, and texts that cannot be read, are not described here.
-/

namespace SheetPackages.Resolution

/-! ## Readable indexes -/

/-- The text is a requirement with a specifier that can be read. -/
def isReadable (text : String) : Bool :=
  match Dependency.parse text with
  | .ok d => d.range.isOk
  | .error _ => false

/-- Every requirement that the index lists can be read. -/
def Readable (i : Index) : Prop :=
  ∀ entry ∈ i.packages.entries, ∀ release ∈ entry.2.versions.values,
    ∀ text ∈ release.dependencies, isReadable text = true

instance (i : Index) : Decidable (Readable i) :=
  inferInstanceAs <| Decidable <| ∀ entry ∈ i.packages.entries,
    ∀ release ∈ entry.2.versions.values, ∀ text ∈ release.dependencies, isReadable text = true

theorem range_isOk {text : String} {d : Dependency} (h : isReadable text = true)
    (hparse : Dependency.parse text = .ok d) : d.range.isOk = true := by
  rwa [isReadable, hparse] at h

theorem ofDependency_ne_error {d : Dependency} (h : d.range.isOk = true) (fault : Fault) :
    Requirement.ofDependency d ≠ .error fault := by
  unfold Requirement.ofDependency
  cases hrange : d.range with
  | ok range => nofun
  | error flaw =>
    rw [hrange] at h
    cases h

theorem Readable.of_release {i : Index} (h : Readable i) {name : String} {v : Version}
    {release : Release} (hrelease : i.release name v = .ok release) :
    ∀ text ∈ release.dependencies, isReadable text = true := by
  unfold Index.release at hrelease
  split at hrelease
  · cases hrelease
  · next listing hp =>
    split at hrelease
    · next r hr =>
      obtain ⟨key, _, hget⟩ := Option.bind_eq_some_iff.mp hr
      cases hrelease
      exact h (name, listing) (OrderedMap.get?_eq_some_iff.mp hp) release
        (OrderedMap.mem_values_iff.mpr ⟨key, hget⟩)
    · cases hrelease

/-- What a candidate of a readable index requires is known and can be read. -/
theorem Readable.not_fails {i : Index} (h : Readable i) {s : State} {name : String} {c : Package}
    (hc : c.version ∈ i.versions c.name) (fault : Fault) : ¬Fails i.provider s name c fault := by
  rintro (hrequires | ⟨requirements, hrequires, habsorb⟩)
  · rcases requires_fault hrequires with hfault | ⟨release, hrelease, text, htext, hread⟩
    · obtain ⟨release, hrelease⟩ := Index.exists_release hc
      rw [hfault] at hrelease
      cases hrelease
    · have hreadable := h.of_release hrelease text htext
      unfold Dependency.read at hread
      cases hparse : Dependency.parse text with
      | ok d => simp [hparse, Except.mapError] at hread
      | error nameless => simp [isReadable, hparse] at hreadable
  · obtain ⟨d, hd, hfault⟩ := absorb_fault habsorb
    obtain ⟨release, hrelease, htexts⟩ := requires_eq_ok_iff.mp hrequires
    obtain ⟨text, htext, hparse⟩ := exists_of_mem_right htexts hd
    exact ofDependency_ne_error (range_isOk (h.of_release hrelease text htext) hparse) _ hfault

/-- With a readable index and readable roots, a resolution that does not run out of rounds succeeds
or gives up. -/
theorem resolve_of_readable {i : Index} (hindex : Readable i) {roots : List Dependency}
    (hroots : ∀ d ∈ roots, d.range.isOk = true) {limit : Option Nat}
    (hrounds : ∀ n, resolve i.provider limit roots ≠ .error (.tooManyRounds n)) :
    (∃ outcome, resolve i.provider limit roots = .ok outcome) ∨
      ∃ read, ReadAs roots read ∧ Explored i.provider (start read) (.ok none) := by
  have hended := resolve_ended i.provider limit roots
  cases hresult : resolve i.provider limit roots with
  | ok outcome => exact .inl ⟨outcome, rfl⟩
  | error fault =>
    rw [hresult] at hended hrounds
    cases hended with
    | unreadable hroot hfault => exact absurd hfault (ofDependency_ne_error (hroots _ hroot) _)
    | failed _ hexplored =>
      rcases hexplored.fault rfl with ⟨n, rfl⟩ | ⟨u, name, found, c, hpick, hmem, hfails⟩
      · exact absurd rfl (hrounds n)
      · rw [(pick_spec hpick).2] at hmem
        obtain ⟨rfl, hversion, _⟩ := Index.of_mem_candidates hmem
        exact absurd hfails (hindex.not_fails hversion _)
    | unsatisfiable hread hexplored => exact .inr ⟨_, hread, hexplored⟩

/-! ## Where requirements and pins come from -/

/-- The requirement is among the roots, or the index lists it for some version. -/
def Asked (i : Index) (roots : List Dependency) (r : Requirement) : Prop :=
  ∃ d, Requirement.ofDependency d = .ok r ∧ (d ∈ roots ∨ ∃ q, Declares i q d)

/-- Requirements that can be asked, and pins that were candidates for some of them. -/
structure Grounded (i : Index) (roots : List Dependency) (s : State) : Prop where
  asked : ∀ name, ∀ r ∈ requirementsIn s.requirements name, Asked i roots r
  offered : ∀ name q, s.pinned.get? name = some q →
    ∃ earlier ⊆ requirementsIn s.requirements name,
      { name, version := q.version } ∈ i.provider.candidates name earlier

/-- What a candidate requires is listed for its version. -/
theorem asked_of_requires {i : Index} {roots : List Dependency} {c : Package}
    {ds : List Dependency} (hrequires : i.provider.requires c = .ok ds) {d : Dependency}
    (hd : d ∈ ds) {r : Requirement} (hr : Requirement.ofDependency d = .ok r) :
    Asked i roots r := by
  obtain ⟨release, hrelease, htexts⟩ := requires_eq_ok_iff.mp hrequires
  obtain ⟨text, htext, hparse⟩ := exists_of_mem_right htexts hd
  exact ⟨d, hr, .inr ⟨c, release, hrelease, text, htext, hparse⟩⟩

theorem start_grounded (i : Index) {roots : List Dependency} {read : List Requirement}
    (hread : ReadAs roots read) : Grounded i roots (start read) where
  asked name r hr := by
    rcases mem_recordAll.mp hr with h | ⟨h, _⟩
    · cases h
    · obtain ⟨d, hd, hofd⟩ := exists_of_mem_right hread h
      exact ⟨d, hofd, .inl hd⟩
  offered name q h := by cases h

/-- What is recorded of a candidate's requirements is asked, as is what was recorded before. -/
theorem Grounded.asked_recordAll {i : Index} {roots : List Dependency} {s : State}
    (h : Grounded i roots s) {c : Package} {ds part : List Dependency}
    (hrequires : i.provider.requires c = .ok ds) (hpart : part ⊆ ds) {read : List Requirement}
    (hread : ReadAs part read) (name : String) :
    ∀ r ∈ requirementsIn (read.foldl record s.requirements) name, Asked i roots r := by
  intro r hr
  rcases mem_recordAll.mp hr with hold | ⟨hnew, _⟩
  · exact h.asked name r hold
  · obtain ⟨d, hd, hofd⟩ := exists_of_mem_right hread hnew
    exact asked_of_requires hrequires (hpart hd) hofd

theorem Grounded.step {i : Index} {roots : List Dependency} {s t : State}
    (h : Grounded i roots s) (hstep : Step i.provider s t) : Grounded i roots t := by
  obtain ⟨name, found, c, hpick, hmem, hpins⟩ := hstep
  obtain ⟨_, rfl⟩ := pick_spec hpick
  obtain @⟨requirements, met, hrequires, habsorb⟩ := hpins
  obtain ⟨read, hread, rfl, _⟩ := absorb_ok habsorb
  have hkept (other : String) : requirementsIn s.requirements other ⊆
      requirementsIn (read.foldl record s.requirements) other :=
    fun r hr ↦ mem_recordAll.mpr (.inl hr)
  constructor
  case asked => exact h.asked_recordAll hrequires (List.Subset.refl _) hread
  case offered =>
    intro other q hq
    rcases get?_pinnedWith hq with ⟨rfl, rfl⟩ | ⟨_, hq⟩
    · rw [(Index.mem_candidates_iff.mp hmem).1] at hmem
      exact ⟨_, hkept other, hmem⟩
    · obtain ⟨earlier, hearlier, hoffered⟩ := h.offered other q hq
      exact ⟨earlier, fun r hr ↦ hkept other (hearlier hr), hoffered⟩

theorem Grounded.run {i : Index} {roots : List Dependency} {s t : State}
    (h : Grounded i roots s) (hsteps : Relation.ReflTransGen (Step i.provider) s t) :
    Grounded i roots t := by
  induction hsteps with
  | refl => exact h
  | tail _ hstep ih => exact ih.step hstep

/-! ## Solutions as guides -/

/-- Where a prerelease meets some requirements on its package and a stable version meets one of
them, a stable version meets them all. -/
def StableSuffices (i : Index) (roots : List Dependency) : Prop :=
  ∀ (name : String) (requirements : List Requirement),
    (∀ r ∈ requirements, r.name = name ∧ Asked i roots r) →
    (∃ v ∈ i.versions name, v.isPrerelease = true ∧
      ∀ r ∈ requirements, r.range.accepts v = true) →
    (∃ v ∈ i.versions name, v.isPrerelease = false ∧
      ∃ r ∈ requirements, r.range.accepts v = true) →
    ∃ v ∈ i.versions name, v.isPrerelease = false ∧
      ∀ r ∈ requirements, r.range.accepts v = true

/-- Stable versions suffice in an index where no package has prereleases beside stable versions. -/
theorem stableSuffices_of_unmixed {i : Index}
    (h : ∀ entry ∈ i.packages.entries, (∀ v ∈ entry.2.releases, v.isPrerelease = false) ∨
      ∀ v ∈ entry.2.releases, v.isPrerelease = true) (roots : List Dependency) :
    StableSuffices i roots := by
  rintro name requirements _ ⟨v, hv, hpre, _⟩ ⟨w, hw, hstable, _⟩
  rcases i.versions_eq_nil_or name with hnone | ⟨entry, hentry, hsome⟩
  · rw [hnone] at hv
    cases hv
  · rw [hsome] at hv hw
    rcases h entry hentry with hall | hall
    · rw [hall v hv] at hpre
      cases hpre
    · rw [hall w hw] at hstable
      cases hstable

section

variable {i : Index} {roots : List Dependency} {read : List Requirement} {s : State}

/-- A pinned prerelease stays a candidate under any recorded requirements on its package: one that a
stable version meets would have led to a stable version that meets the earlier ones. -/
theorem Grounded.no_stable (hgrounded : Grounded i roots s) (hsound : Sound i read s)
    (hstable : StableSuffices i roots) {name : String} {q : Package}
    (hq : s.pinned.get? name = some q) (hpre : q.version.isPrerelease = true) {r : Requirement}
    (hr : r ∈ requirementsIn s.requirements name) {w : Version} (hw : w ∈ i.pooled name)
    (haccepts : r.range.accepts w = true) : w.isPrerelease = true := by
  by_contra hplain
  have hplain : w.isPrerelease = false := by simpa using hplain
  obtain ⟨earlier, hearlier, hoffered⟩ := hgrounded.offered name q hq
  obtain ⟨_, _, _, hlast⟩ := Index.mem_candidates_iff.mp hoffered
  obtain ⟨v, hv, hv', hall⟩ := hstable name (requirementsIn s.requirements name)
    (fun x hx ↦ ⟨hsound.own name x hx, hgrounded.asked name x hx⟩)
    ⟨q.version, (hsound.pinned name q hq).1 ▸ (hsound.pinned name q hq).2, hpre,
      hsound.satisfied name q hq⟩
    ⟨w, Version.Pool.mem_of_mem_ofList hw, hplain, r, hr, haccepts⟩
  obtain ⟨u, hu, hu', hsame⟩ := Index.exists_pooled_of_stable hv hv'
  have hlate := hlast hpre u hu fun x hx _ ↦ (hsame x.range).trans (hall x (hearlier hx))
  rw [hu'] at hlate
  cases hlate

/-- Where stable versions suffice, the pins of a finished search guide every search for its
requirements. -/
theorem Grounded.guides (hgrounded : Grounded i roots s) (hsound : Sound i read s)
    (hdone : pick i.provider s = none) (hstable : StableSuffices i roots) :
    Guides i (fun name ↦ (s.pinned.get? name).map Package.version)
      fun r ↦ r ∈ requirementsIn s.requirements r.name where
  accepts r hr := by
    obtain ⟨q, hq⟩ := exists_pin hdone hr
    exact ⟨q.version, by rw [hq, Option.map_some], hsound.satisfied _ q hq r hr⟩
  offers r v hr hv requirements hmem hrecorded := by
    obtain ⟨q, hq, rfl⟩ := Option.map_eq_some_iff.mp hv
    obtain ⟨earlier, _, hoffered⟩ := hgrounded.offered r.name q hq
    refine Index.mem_candidates_iff.mpr ⟨rfl, (Index.mem_candidates_iff.mp hoffered).2.1, ?_, ?_⟩
    · intro x hx hname
      exact hsound.satisfied r.name q hq x (hname ▸ hrecorded x hx)
    · intro hpre w hw hall
      exact hgrounded.no_stable hsound hstable hq hpre hr hw (hall r hmem rfl)
  declares c ds hc hrequires d hd r hr := by
    obtain ⟨q, hq, hversion⟩ := Option.map_eq_some_iff.mp hc
    obtain ⟨release, hrelease, htexts⟩ := requires_eq_ok_iff.mp hrequires
    obtain ⟨text, htext, hparse⟩ := exists_of_mem_right htexts hd
    obtain ⟨release', hrelease', hdeclared⟩ := hsound.declared c.name q hq
    rw [(hsound.pinned c.name q hq).1, hversion, hrelease] at hrelease'
    cases hrelease'
    obtain ⟨d', r', hparse', hr', hrec⟩ := hdeclared text htext
    rw [hparse] at hparse'
    cases hparse'
    rw [hr] at hr'
    cases hr'
    rw [name_of_ofDependency hr]
    exact hrec

end

/-! ## Other orders -/

/-- Roots that can be resolved do not make a search for them in another order give up. -/
theorem not_gives_up_of_perm {i : Index} {roots others : List Dependency} (hperm : roots.Perm others)
    (hstable : StableSuffices i roots) {limit : Option Nat} {outcome : Outcome}
    (h : resolve i.provider limit roots = .ok outcome) {read : List Requirement}
    (hread : ReadAs others read) : ¬Explored i.provider (start read) (.ok none) := by
  obtain ⟨first, s, hfirst, _, hexplored⟩ := explored_of_resolve h
  obtain ⟨hsteps, hdone⟩ := hexplored.reaches rfl
  have hsound : Sound i first s := (start_sound i first).run hsteps
  have hgrounded : Grounded i roots s := (start_grounded i hfirst).run hsteps
  intro hgives
  refine hgives.not_agrees (hgrounded.guides hsound hdone hstable) rfl
    (start_agrees_of_granted _ fun r hr ↦ ?_)
  obtain ⟨d, hd, hofd⟩ := exists_of_mem_right hread hr
  obtain ⟨r', hr', hofd'⟩ := exists_of_mem_left hfirst (hperm.mem_iff.mpr hd)
  rw [hofd] at hofd'
  cases hofd'
  exact hsound.rooted r hr'

theorem StableSuffices.of_perm {i : Index} {roots others : List Dependency}
    (h : StableSuffices i roots) (hperm : roots.Perm others) : StableSuffices i others := by
  intro name requirements hasked
  refine h name requirements fun r hr ↦ ?_
  obtain ⟨hname, d, hofd, hd⟩ := hasked r hr
  exact ⟨hname, d, hofd, hd.imp_left hperm.mem_iff.mpr⟩

/-- Where stable versions suffice, the order of the roots does not decide whether they can be
resolved. -/
theorem resolve_ok_iff_of_perm (i : Index) (hindex : Readable i) (roots others : List Dependency)
    (hperm : roots.Perm others) (hroots : ∀ d ∈ roots, d.range.isOk = true)
    (hstable : StableSuffices i roots) (limit : Option Nat)
    (hrounds : ∀ n, resolve i.provider limit roots ≠ .error (.tooManyRounds n))
    (hrounds' : ∀ n, resolve i.provider limit others ≠ .error (.tooManyRounds n)) :
    (∃ outcome, resolve i.provider limit roots = .ok outcome) ↔
      ∃ outcome, resolve i.provider limit others = .ok outcome := by
  constructor
  · rintro ⟨outcome, h⟩
    have hothers : ∀ d ∈ others, d.range.isOk = true := fun d hd ↦ hroots d (hperm.mem_iff.mpr hd)
    refine (resolve_of_readable hindex hothers hrounds').resolve_right ?_
    rintro ⟨read, hread, hgives⟩
    exact not_gives_up_of_perm hperm hstable h hread hgives
  · rintro ⟨outcome, h⟩
    refine (resolve_of_readable hindex hroots hrounds).resolve_right ?_
    rintro ⟨read, hread, hgives⟩
    exact not_gives_up_of_perm hperm.symm (hstable.of_perm hperm) h hread hgives

/-- Previews have no stable version; the newest tool needs a package that is gone. -/
def previewIndex : Index where
  packages := .ofList [
    ("preview", { versions := .ofList [("1.0.0-rc.1", {}), ("1.0.0-rc.2", {})] }),
    ("tool", { versions := .ofList [
      ("1.0.0", { dependencies := ["preview<1.0.0-rc.2"] }),
      ("2.0.0", { dependencies := ["gone"] })] })]

/-- One order has to give up the newest preview, the other one never tries it. -/
theorem resolve_previewIndex :
    Readable previewIndex ∧ StableSuffices previewIndex [⟨"preview", ""⟩, ⟨"tool", ""⟩] ∧
      (∃ outcome, resolve previewIndex.provider (some 10) [⟨"preview", ""⟩, ⟨"tool", ""⟩] =
        .ok outcome ∧ outcome.rounds = 4) ∧
      (∀ n, resolve previewIndex.provider (some 10) [⟨"tool", ""⟩, ⟨"preview", ""⟩] ≠
        .error (.tooManyRounds n)) ∧
      ∃ outcome, resolve previewIndex.provider (some 10) [⟨"tool", ""⟩, ⟨"preview", ""⟩] =
        .ok outcome := by
  have hindex : Readable previewIndex := by decide +kernel
  have hstable := stableSuffices_of_unmixed (i := previewIndex) (by decide +kernel)
    [⟨"preview", ""⟩, ⟨"tool", ""⟩]
  have heval : (resolve previewIndex.provider (some 10) [⟨"preview", ""⟩, ⟨"tool", ""⟩]).toOption.map
      Outcome.rounds = some 4 := by
    rw [resolve_eq_resolveWithin]
    decide +kernel
  have heval' : (resolve previewIndex.provider (some 10)
      [⟨"tool", ""⟩, ⟨"preview", ""⟩]).toOption.map Outcome.rounds = some 3 := by
    rw [resolve_eq_resolveWithin]
    decide +kernel
  obtain ⟨outcome, h, hrounds⟩ := exists_of_map_toOption heval
  obtain ⟨_, h', _⟩ := exists_of_map_toOption heval'
  have hlimit (n : Nat) : resolve previewIndex.provider (some 10) [⟨"preview", ""⟩, ⟨"tool", ""⟩] ≠
      .error (.tooManyRounds n) := by
    rw [h]
    nofun
  have hlimit' (n : Nat) : resolve previewIndex.provider (some 10)
      [⟨"tool", ""⟩, ⟨"preview", ""⟩] ≠ .error (.tooManyRounds n) := by
    rw [h']
    nofun
  refine ⟨hindex, hstable, ⟨outcome, h, hrounds⟩, hlimit', ?_⟩
  exact (resolve_ok_iff_of_perm _ hindex _ _ (.swap _ _ []) (by decide +kernel) hstable _
    hlimit hlimit').mp ⟨outcome, h⟩

/-- The stable version of `x` hides the prerelease that `y` needs. -/
def hiddenIndex : Index where
  packages := .ofList [
    ("x", { versions := .ofList [("1.0.0", {}), ("2.0.0-rc.1", {})] }),
    ("y", { versions := .ofList [("1.0.0", { dependencies := ["x>=2.0.0-alpha"] })] })]

/-- Where a prerelease is the last resort, the order can decide. -/
theorem resolve_hiddenIndex :
    Readable hiddenIndex ∧
      (∃ outcome, resolve hiddenIndex.provider none [⟨"y", ""⟩, ⟨"x", ""⟩] = .ok outcome ∧
        outcome.packages.map (fun q ↦ (q.name, q.version.text)) =
          [("y", "1.0.0"), ("x", "2.0.0-rc.1")]) ∧
      resolve hiddenIndex.provider none [⟨"x", ""⟩, ⟨"y", ""⟩] =
        .error (.unsatisfiable [⟨"x", ""⟩, ⟨"x", ">=2.0.0-alpha"⟩]) := by
  refine ⟨by decide +kernel, exists_of_map_toOption ?_, eq_error_of_map (f := fun _ ↦ ()) ?_⟩
  · rw [resolve_eq_resolveWithin]
    decide +kernel
  · rw [resolve_eq_resolveWithin]
    decide +kernel

end SheetPackages.Resolution
