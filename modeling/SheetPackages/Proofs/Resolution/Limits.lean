import SheetPackages.Proofs.Resolution.Completeness

/-!
# Limits on rounds

All branches of a search count their rounds in one place, and a search ends at once when it counts
more than its limit. So there is a number of rounds that a search needs: under a limit of at least
that many it ends as without a limit, and under a smaller one in the fault of the limit. The number
of a round is found from those of the searches behind its candidates, which go on counting where the
candidate before has left off.

The number may be the one of a search that fails for another reason. How large it gets is not
described here.
-/

namespace SheetPackages.Resolution

/-- The run begins with `begun` rounds counted and comes to its end with `needed` rounds, unless a
limit keeps it from that. -/
structure Needs (needed begun : Nat)
    (run : Option Nat → Except Fault (Option State × Progress)) : Prop where
  begun_le : begun ≤ needed
  limited : ∀ limit, begun ≤ limit →
    run (some limit) = if limit < needed then .error (.tooManyRounds limit) else run none
  rounds : ∀ result progress, run none = .ok (result, progress) → progress.rounds = needed
  unlimited : ∀ limit, run none ≠ .error (.tooManyRounds limit)

namespace Needs

variable {needed begun : Nat} {run : Option Nat → Except Fault (Option State × Progress)}

theorem of_ok (result : Option State) (progress : Progress) :
    Needs progress.rounds progress.rounds fun _ ↦ .ok (result, progress) where
  begun_le := Nat.le_refl _
  limited _ hlimit := (if_neg (Nat.not_lt.mpr hlimit)).symm
  rounds _ _ h := by
    cases h
    rfl
  unlimited := nofun

theorem of_error {fault : Fault} (hfault : ∀ limit, fault ≠ .tooManyRounds limit) (begun : Nat) :
    Needs begun begun fun _ ↦ .error fault where
  begun_le := Nat.le_refl _
  limited _ hlimit := (if_neg (Nat.not_lt.mpr hlimit)).symm
  rounds := nofun
  unlimited limit h := hfault limit (Except.error.inj h)

/-- A run that counts one more round first, and ends there if this is above the limit. -/
theorem counted (h : Needs needed (begun + 1) run)
    {counting : Option Nat → Except Fault (Option State × Progress)}
    (hlimited : ∀ limit, counting (some limit) =
      if limit < begun + 1 then .error (.tooManyRounds limit) else run (some limit))
    (hnone : counting none = run none) : Needs needed begun counting where
  begun_le := Nat.le_of_succ_le h.begun_le
  limited limit _ := by
    rw [hlimited, hnone]
    by_cases hover : limit < begun + 1
    · rw [if_pos hover, if_pos (Nat.lt_of_lt_of_le hover h.begun_le)]
    · rw [if_neg hover, h.limited limit (Nat.not_lt.mp hover)]
  rounds result progress := hnone ▸ h.rounds result progress
  unlimited limit := hnone ▸ h.unlimited limit

/-- What follows a run goes on counting where the run has left off. -/
theorem bind (h : Needs needed begun run)
    {next : Option Nat → Option State × Progress → Except Fault (Option State × Progress)}
    (hnext : ∀ result progress, progress.rounds = needed →
      ∃ total, Needs total needed fun limit ↦ next limit (result, progress)) :
    ∃ total, Needs total begun fun limit ↦ run limit >>= next limit := by
  have hover {limit : Nat} (hbegun : begun ≤ limit) (hlimit : limit < needed) :
      run (some limit) >>= next (some limit) = .error (.tooManyRounds limit) := by
    rw [h.limited limit hbegun, if_pos hlimit]
    rfl
  have hwithin {limit : Nat} (hbegun : begun ≤ limit) (hlimit : ¬limit < needed) :
      run (some limit) >>= next (some limit) = run none >>= next (some limit) := by
    rw [h.limited limit hbegun, if_neg hlimit]
  cases hend : run none with
  | error fault =>
    have hfault (limit : Option Nat) : run none >>= next limit = .error fault := by
      rw [hend]
      rfl
    refine ⟨needed, h.begun_le, fun limit hbegun ↦ ?_, by simp [hfault], fun limit hlimit ↦ ?_⟩
    · rw [hfault]
      by_cases hlimit : limit < needed
      · rw [if_pos hlimit, hover hbegun hlimit]
      · rw [if_neg hlimit, hwithin hbegun hlimit, hfault]
    · rw [hfault] at hlimit
      exact h.unlimited limit (hend.trans hlimit)
  | ok ending =>
    obtain ⟨result, progress⟩ := ending
    obtain ⟨total, htotal⟩ := hnext result progress (h.rounds result progress hend)
    have hnext (limit : Option Nat) : run none >>= next limit = next limit (result, progress) := by
      rw [hend]
      rfl
    refine ⟨total, Nat.le_trans h.begun_le htotal.begun_le, fun limit hbegun ↦ ?_, ?_, ?_⟩
    · by_cases hlimit : limit < needed
      · rw [hover hbegun hlimit, if_pos (Nat.lt_of_lt_of_le hlimit htotal.begun_le)]
      · rw [hwithin hbegun hlimit, hnext, hnext]
        exact htotal.limited limit (Nat.not_lt.mp hlimit)
    · rw [hnext]
      exact htotal.rounds
    · rw [hnext]
      exact htotal.unlimited

end Needs

/-! ## Parts of a search -/

section

variable {p : Provider} {s : State} {name : String} {c : Package} {found : List Package}

theorem attempt_needs (hp : ∀ s name c limit, ¬Fails p s name c (.tooManyRounds limit))
    {next : Option Nat → Continuation} {progress : Progress}
    (hnext : ∀ t, Pins p s name c t →
      ∃ needed, Needs needed progress.rounds fun limit ↦ next limit t progress) :
    ∃ needed, Needs needed progress.rounds fun limit ↦
      attempt (next limit) p s name c progress := by
  have hfails {fault : Fault} (h : Fails p s name c fault) (limit : Nat) :
      fault ≠ .tooManyRounds limit := by
    rintro rfl
    exact hp s name c limit h
  simp only [attempt, bind, Except.bind]
  cases hrequires : p.requires c with
  | error fault => exact ⟨_, .of_error (hfails (.inl hrequires)) _⟩
  | ok requirements =>
    simp only
    cases habsorb : absorb p (pinnedWith s name c requirements) s.requirements requirements with
    | error fault => exact ⟨_, .of_error (hfails (.inr ⟨requirements, hrequires, habsorb⟩)) _⟩
    | ok answer =>
      cases answer with
      | error causes => exact ⟨_, .of_ok none { progress with causes }⟩
      | ok met => exact hnext _ (.absorbed hrequires habsorb)

theorem firstOf_cons (tried : Package → Progress → Except Fault (Option State × Progress))
    (c : Package) (rest : List Package) (progress : Progress) :
    firstOf tried (c :: rest) progress = tried c progress >>= fun (result, ended) ↦
      match result with
      | some done => .ok (some done, ended)
      | none => firstOf tried rest { ended with backtracks := ended.backtracks + 1 } := by
  rw [firstOf]
  rcases tried c progress with fault | ⟨_ | done, ended⟩ <;> rfl

/-- A candidate is tried once the rounds of those before it are counted. -/
theorem firstOf_needs
    {tried : Option Nat → Package → Progress → Except Fault (Option State × Progress)}
    (htried : ∀ c ∈ found, ∀ progress,
      ∃ needed, Needs needed progress.rounds fun limit ↦ tried limit c progress)
    (progress : Progress) :
    ∃ needed, Needs needed progress.rounds fun limit ↦ firstOf (tried limit) found progress := by
  induction found generalizing progress with
  | nil => exact ⟨_, .of_ok none progress⟩
  | cons c rest ih =>
    obtain ⟨hc, hrest⟩ := List.forall_mem_cons.mp htried
    obtain ⟨here, hhere⟩ := hc progress
    simp only [firstOf_cons]
    refine hhere.bind fun result ended hended ↦ ?_
    subst hended
    cases result with
    | some done => exact ⟨_, .of_ok (some done) ended⟩
    | none => exact ih hrest { ended with backtracks := ended.backtracks + 1 }

/-- What a round does once it is counted. -/
def pursue (next : Continuation) (p : Provider) : Continuation := fun s progress ↦
  match pick p s with
  | none => .ok (some s, progress)
  | some (name, []) => .ok (none, { progress with causes := s.requirementsOn name })
  | some (name, found) => firstOf (attempt next p s name) found progress

theorem round_none (next : Continuation) (p : Provider) (s : State) (progress : Progress) :
    round next p none s progress =
      pursue next p s { progress with rounds := progress.rounds + 1 } :=
  rfl

theorem round_some (next : Continuation) (p : Provider) (limit : Nat) (s : State)
    (progress : Progress) : round next p (some limit) s progress =
      if limit < progress.rounds + 1 then .error (.tooManyRounds limit)
      else pursue next p s { progress with rounds := progress.rounds + 1 } := by
  rw [round, Option.filter_some]
  by_cases h : limit < progress.rounds + 1
  · simp only [gt_iff_lt, h, decide_true, if_true]
    rfl
  · simp only [gt_iff_lt, h, decide_false, Bool.false_eq_true, if_false]
    rfl

theorem pursue_needs (hp : ∀ s name c limit, ¬Fails p s name c (.tooManyRounds limit))
    (next : Option Nat → Continuation)
    (hnext : ∀ t, Step p s t → ∀ progress,
      ∃ needed, Needs needed progress.rounds fun limit ↦ next limit t progress)
    (progress : Progress) :
    ∃ needed, Needs needed progress.rounds fun limit ↦ pursue (next limit) p s progress := by
  unfold pursue
  split
  · exact ⟨_, .of_ok _ _⟩
  · exact ⟨_, .of_ok none { progress with causes := s.requirementsOn _ }⟩
  · next name found _ hpick =>
    refine firstOf_needs (fun c hc progress ↦ attempt_needs hp fun t hpins ↦ ?_) progress
    exact hnext t ⟨name, found, c, hpick, hc, hpins⟩ progress

/-- A search needs a number of rounds. -/
theorem search_needs (hp : ∀ s name c limit, ¬Fails p s name c (.tooManyRounds limit))
    (s : State) (progress : Progress) :
    ∃ needed, Needs needed progress.rounds fun limit ↦ search p limit s progress := by
  induction s using Step.induct (p := p) generalizing progress with
  | h s ih =>
    obtain ⟨needed, hneeded⟩ := pursue_needs hp (search p) ih
      { progress with rounds := progress.rounds + 1 }
    refine ⟨needed, hneeded.counted (fun limit ↦ ?_) ?_⟩
    · rw [search_eq_round, round_some]
    · rw [search_eq_round, round_none]

end

/-! ## Resolutions -/

theorem not_fails_tooManyRounds {i : Index} (s : State) (name : String) (c : Package)
    (limit : Nat) : ¬Fails i.provider s name c (.tooManyRounds limit) := by
  intro h
  rcases h.fault_cases with heq | heq | ⟨_, _, heq⟩ <;> cases heq

/-- A resolution needs a number of rounds, which it reports if it succeeds. Under a smaller limit it
fails for that, and under any other it ends as without a limit. -/
theorem exists_needed (i : Index) (roots : List Dependency) :
    ∃ needed, (∀ limit, resolve i.provider (some limit) roots =
        if limit < needed then .error (.tooManyRounds limit) else resolve i.provider none roots) ∧
      (∀ outcome, resolve i.provider none roots = .ok outcome → outcome.rounds = needed) ∧
      ∀ limit, resolve i.provider none roots ≠ .error (.tooManyRounds limit) := by
  cases hread : roots.mapM Requirement.ofDependency with
  | error fault =>
    obtain ⟨d, _, hfault⟩ := exists_of_mapM_eq_error hread
    obtain ⟨reason, rfl⟩ := ofDependency_fault hfault
    refine ⟨0, fun limit ↦ ?_, ?_, ?_⟩ <;> simp [resolve_of_unreadable hread]
  | ok read =>
    have hroots : ReadAs roots read := mapM_eq_ok_iff.mp hread
    obtain ⟨needed, hneeded⟩ := search_needs (p := i.provider) not_fails_tooManyRounds
      (start read) {}
    simp only [resolve_of_readAs hroots]
    refine ⟨needed, fun limit ↦ ?_, fun outcome h ↦ ?_, fun limit h ↦ ?_⟩
    · rw [hneeded.limited limit (Nat.zero_le limit)]
      split <;> rfl
    · obtain ⟨⟨_ | s, progress⟩, hend, h⟩ := exists_of_bind_eq_ok h
      · cases h
      · cases h
        exact hneeded.rounds _ _ hend
    · rcases hend : search i.provider none (start read) {} with fault | ⟨_ | s, progress⟩ <;>
        rw [hend] at h <;> cases h
      exact hneeded.unlimited limit hend

/-- A resolution that does not run out of rounds ends in the same way under any greater limit, and
one that runs out of rounds does so under any smaller limit. -/
theorem resolve_of_limit_le (i : Index) (roots : List Dependency) (limit greater : Nat)
    (hle : limit ≤ greater) :
    ((∀ n, resolve i.provider (some limit) roots ≠ .error (.tooManyRounds n)) →
        resolve i.provider (some greater) roots = resolve i.provider (some limit) roots) ∧
      (∀ outcome, resolve i.provider (some limit) roots = .ok outcome → outcome.rounds ≤ limit) ∧
      ∀ n, resolve i.provider (some greater) roots = .error (.tooManyRounds n) →
        n = greater ∧ resolve i.provider (some limit) roots = .error (.tooManyRounds limit) := by
  obtain ⟨needed, hlimited, hrounds, hunlimited⟩ := exists_needed i roots
  refine ⟨fun hends ↦ ?_, fun outcome h ↦ ?_, fun n h ↦ ?_⟩
  · have hneeded : ¬limit < needed := fun hlt ↦ hends limit ((hlimited limit).trans (if_pos hlt))
    rw [hlimited, hlimited, if_neg hneeded, if_neg (by omega)]
  · rw [hlimited] at h
    split at h
    · cases h
    · next hneeded =>
      rw [hrounds outcome h]
      exact Nat.not_lt.mp hneeded
  · rw [hlimited] at h
    split at h
    · next hlt =>
      cases h
      exact ⟨rfl, by rw [hlimited, if_pos (by omega)]⟩
    · exact absurd h (hunlimited n)

/-- A resolution that has to give up a candidate ends in its third round. -/
theorem resolve_cyclicIndex_limited : ∃ outcome,
    resolve cyclicIndex.provider (some 3) [⟨"app", "<3"⟩] = .ok outcome ∧ outcome.rounds = 3 ∧
      outcome.backtracks = 1 ∧
      resolve cyclicIndex.provider (some defaultLimit) [⟨"app", "<3"⟩] = .ok outcome ∧
      resolve cyclicIndex.provider (some 2) [⟨"app", "<3"⟩] = .error (.tooManyRounds 2) ∧
      resolve cyclicIndex.provider (some 0) [⟨"app", "<3"⟩] = .error (.tooManyRounds 0) := by
  have heval : (resolve cyclicIndex.provider (some 3) [⟨"app", "<3"⟩]).toOption.map
      (fun outcome ↦ (outcome.rounds, outcome.backtracks)) = some (3, 1) := by
    rw [resolve_eq_resolveWithin]
    decide +kernel
  have hover : resolve cyclicIndex.provider (some 2) [⟨"app", "<3"⟩] =
      .error (.tooManyRounds 2) := by
    refine eq_error_of_map (f := fun _ ↦ ()) ?_
    rw [resolve_eq_resolveWithin]
    decide +kernel
  obtain ⟨outcome, h, hcounts⟩ := exists_of_map_toOption heval
  obtain ⟨hrounds, hbacktracks⟩ := Prod.mk.inj hcounts
  obtain ⟨hgreater, _, _⟩ :=
    resolve_of_limit_le cyclicIndex [⟨"app", "<3"⟩] 3 defaultLimit (by decide)
  obtain ⟨_, _, hsmaller⟩ := resolve_of_limit_le cyclicIndex [⟨"app", "<3"⟩] 0 2 (by decide)
  refine ⟨outcome, h, hrounds, hbacktracks, ?_, hover, (hsmaller 2 hover).2⟩
  rw [hgreater (by simp [h]), h]

end SheetPackages.Resolution
