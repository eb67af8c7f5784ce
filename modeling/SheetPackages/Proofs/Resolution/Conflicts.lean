import SheetPackages.Proofs.Resolution.Rearrangement
import SheetPackages.Proofs.Version.Preorder

/-!
# Reported conflicts

A resolution that gives up reports the requirements of its latest conflict. They are on one package,
and the last of them is the one that could not be met. Each conflict replaces the one before, so the
report comes from the branch on which every package is pinned at the last of its candidates, which
is the oldest version that the requirements accept.

So the report is about that version. Its last requirement refuses the oldest version that the others
accept, but it may accept a newer one, which has been given up for another reason. The report is a
conflict in itself only when the last requirement accepts none of the versions that the others
accept; for an upper bound that is always so.
-/

namespace SheetPackages.Resolution

/-! ## The latest conflict -/

/-- Pinning the last candidate of the picked package leads from `s` to `t`. -/
def LastStep (p : Provider) (s t : State) : Prop :=
  ∃ name before c, pick p s = some (name, before ++ [c]) ∧ Pins p s name c t

/-- The requirements of a conflict in a state: the picked package has no candidates, or the last of
them is rejected. -/
inductive Conflict (p : Provider) (s : State) : List Requirement → Prop
  | unmet {name : String} (hpick : pick p s = some (name, [])) :
      Conflict p s (requirementsIn s.requirements name)
  | rejected {name : String} {before : List Package} {c : Package} {ds : List Dependency}
      {causes : List Requirement} (hpick : pick p s = some (name, before ++ [c]))
      (hrequires : p.requires c = .ok ds)
      (habsorb : absorb p (pinnedWith s name c ds) s.requirements ds = .ok (.error causes)) :
      Conflict p s causes

theorem LastStep.step {p : Provider} {s t : State} (h : LastStep p s t) : Step p s t := by
  obtain ⟨name, before, c, hpick, hpins⟩ := h
  exact ⟨name, _, c, hpick, List.mem_append_right before List.mem_cons_self, hpins⟩

/-- Nothing comes of a candidate because it is rejected, or because nothing comes of the search
behind it. -/
theorem attempt_eq_none {next : Continuation} {p : Provider} {s : State} {name : String}
    {c : Package} {progress ended : Progress}
    (h : attempt next p s name c progress = .ok (none, ended)) :
    (∃ ds, p.requires c = .ok ds ∧
      absorb p (pinnedWith s name c ds) s.requirements ds = .ok (.error ended.causes)) ∨
    ∃ t, Pins p s name c t ∧ next t progress = .ok (none, ended) := by
  obtain ⟨ds, hrequires, h⟩ := exists_of_bind_eq_ok h
  obtain ⟨answer, habsorb, h⟩ := exists_of_bind_eq_ok h
  cases answer with
  | error causes =>
    cases h
    exact .inl ⟨ds, hrequires, habsorb⟩
  | ok met => exact .inr ⟨_, .absorbed hrequires habsorb, h⟩

/-- When nothing comes of any candidate, the causes that stay are those of the last one. -/
theorem firstOf_eq_none {tried : Package → Progress → Except Fault (Option State × Progress)}
    {found : List Package} (hfound : found ≠ []) {progress ended : Progress}
    (h : firstOf tried found progress = .ok (none, ended)) :
    ∃ before c earlier reached, found = before ++ [c] ∧
      tried c earlier = .ok (none, reached) ∧ reached.causes = ended.causes := by
  induction found generalizing progress with
  | nil => exact absurd rfl hfound
  | cons c rest ih =>
    rw [firstOf] at h
    rcases htried : tried c progress with fault | ⟨_ | done, reached⟩ <;> rw [htried] at h
    · cases h
    · cases rest with
      | nil =>
        cases h
        exact ⟨[], c, progress, reached, rfl, htried, rfl⟩
      | cons b more =>
        obtain ⟨before, d, earlier, reached, heq, hlast, hcauses⟩ := ih (List.cons_ne_nil b more) h
        exact ⟨c :: before, d, earlier, reached, congrArg (c :: ·) heq, hlast, hcauses⟩
    · cases h

/-- A round that finds nothing has its causes from a conflict, or from what it does behind the last
candidate. -/
theorem round_eq_none {next : Continuation} {p : Provider} {limit : Option Nat} {s : State}
    {progress ended : Progress} (h : round next p limit s progress = .ok (none, ended)) :
    Conflict p s ended.causes ∨ ∃ t earlier reached, LastStep p s t ∧
      next t earlier = .ok (none, reached) ∧ reached.causes = ended.causes := by
  unfold round at h
  simp only at h
  split at h
  · cases h
  · split at h
    · cases h
    · next name hpick =>
      cases h
      exact .inl (.unmet hpick)
    · next name found hfound hpick =>
      obtain ⟨before, c, earlier, reached, rfl, hlast, hcauses⟩ := firstOf_eq_none hfound h
      rw [← hcauses]
      rcases attempt_eq_none hlast with ⟨ds, hrequires, habsorb⟩ | ⟨t, hpins, hnext⟩
      · exact .inl (.rejected hpick hrequires habsorb)
      · exact .inr ⟨t, earlier, reached, ⟨name, before, c, hpick, hpins⟩, hnext, rfl⟩

/-- The causes of a search that finds nothing are those of a conflict behind last candidates. -/
theorem search_eq_none {p : Provider} {limit : Option Nat} {s : State} {progress ended : Progress}
    (h : search p limit s progress = .ok (none, ended)) :
    ∃ t, Relation.ReflTransGen (LastStep p) s t ∧ Conflict p t ended.causes := by
  induction s using Step.induct (p := p) generalizing progress ended with
  | h s ih =>
    rw [search_eq_round] at h
    rcases round_eq_none h with hconflict | ⟨t, earlier, reached, hstep, hnext, hcauses⟩
    · exact ⟨s, .refl, hconflict⟩
    · obtain ⟨u, hsteps, hconflict⟩ := ih t hstep.step hnext
      exact ⟨u, .head hstep hsteps, hcauses ▸ hconflict⟩

/-! ## The oldest versions -/

/-- The requirement can be read, and accepts the version. -/
def Accepts (d : Dependency) (v : Version) : Prop :=
  ∃ range, d.range = .ok range ∧ range.accepts v = true

instance (d : Dependency) (v : Version) : Decidable (Accepts d v) :=
  match hrange : d.range with
  | .ok range => decidable_of_iff (range.accepts v = true) (by simp [Accepts, hrange])
  | .error _ => .isFalse (by simp [Accepts, hrange])

/-- A published version of the package that all requirements accept. -/
def Suits (i : Index) (name : String) (ds : List Dependency) (v : Version) : Prop :=
  v ∈ i.versions name ∧ ∀ d ∈ ds, Accepts d v

/-- No version that meets the requirements on a package is older than its pin. -/
def PinsOldest (i : Index) (requirements : OrderedMap (List Requirement))
    (pinned : OrderedMap Package) : Prop :=
  ∀ name q, pinned.get? name = some q → ∀ w ∈ i.versions name,
    (∀ r ∈ requirementsIn requirements name, r.range.accepts w = true) →
      w.precedence q.version ≠ .lt

section

variable {i : Index} {name : String} {requirements : List Requirement}

/-- Requirements accept a stable version only if they leave a candidate of its precedence. -/
theorem exists_candidate (hstable : ∀ v ∈ i.versions name, v.isPrerelease = false) {w : Version}
    (hw : w ∈ i.versions name) (haccepts : ∀ r ∈ requirements, r.range.accepts w = true) :
    ∃ c ∈ i.provider.candidates name requirements, c.version.same w = true := by
  obtain ⟨u, hu, hsame⟩ := Version.Pool.exists_same_ofList hw
  have hplain : u.isPrerelease = false := hstable u (Version.Pool.mem_of_mem_ofList hu)
  refine ⟨{ name, version := u }, Index.mem_candidates_iff.mpr ⟨rfl, hu, ?_, ?_⟩, hsame⟩
  · intro r hr _
    exact (r.range.accepts_of_same hsame hplain).symm.trans (haccepts r hr)
  · intro hpre
    cases hplain.symm.trans hpre

theorem not_accepted_of_candidates_eq_nil
    (hstable : ∀ v ∈ i.versions name, v.isPrerelease = false)
    (h : i.provider.candidates name requirements = []) :
    ∀ w ∈ i.versions name, ¬∀ r ∈ requirements, r.range.accepts w = true := by
  intro w hw haccepts
  obtain ⟨c, hc, _⟩ := exists_candidate hstable hw haccepts
  rw [h] at hc
  cases hc

/-- No version that the requirements accept is older than the last candidate. -/
theorem not_older_than_last (hstable : ∀ v ∈ i.versions name, v.isPrerelease = false)
    {before : List Package} {c : Package}
    (h : i.provider.candidates name requirements = before ++ [c]) {w : Version}
    (hw : w ∈ i.versions name) (haccepts : ∀ r ∈ requirements, r.range.accepts w = true) :
    w.precedence c.version ≠ .lt := by
  obtain ⟨b, hb, hsame⟩ := exists_candidate hstable hw haccepts
  rw [← (Version.precedence_congr hsame c.version).1]
  have hnewest := i.pairwise_candidates name requirements
  rw [h] at hb hnewest
  rcases List.mem_append.mp hb with hb | hb
  · have hlt := (List.pairwise_append.mp hnewest).2.2 b hb c List.mem_cons_self
    rw [← Version.precedence_swap, hlt]
    exact nofun
  · rw [List.mem_singleton.mp hb, Version.precedence_self]
    exact nofun

end

/-- A pin of the last candidate is the oldest version, whatever is required besides. -/
theorem PinsOldest.pinnedWith {i : Index}
    (hstable : ∀ name, ∀ v ∈ i.versions name, v.isPrerelease = false) {s : State}
    (h : PinsOldest i s.requirements s.pinned) {name : String} {before : List Package}
    {c : Package} (hpick : pick i.provider s = some (name, before ++ [c]))
    (ds : List Dependency) (read : List Requirement) :
    PinsOldest i (read.foldl record s.requirements) (pinnedWith s name c ds) := by
  intro other q hq w hw haccepts
  have hearlier : ∀ r ∈ requirementsIn s.requirements other, r.range.accepts w = true :=
    fun r hr ↦ haccepts r (mem_recordAll.mpr (.inl hr))
  rcases get?_pinnedWith hq with ⟨rfl, rfl⟩ | ⟨_, hq⟩
  · exact not_older_than_last (hstable other) (pick_spec hpick).2.symm hw hearlier
  · exact h other q hq w hw hearlier

theorem PinsOldest.run {i : Index}
    (hstable : ∀ name, ∀ v ∈ i.versions name, v.isPrerelease = false) {s t : State}
    (h : PinsOldest i s.requirements s.pinned)
    (hsteps : Relation.ReflTransGen (LastStep i.provider) s t) :
    PinsOldest i t.requirements t.pinned := by
  induction hsteps with
  | refl => exact h
  | tail _ hstep ih =>
    obtain ⟨name, before, c, hpick, @⟨ds, met, _, habsorb⟩⟩ := hstep
    obtain ⟨read, _, rfl, _⟩ := absorb_ok habsorb
    exact ih.pinnedWith hstable hpick ds read

/-! ## What is reported -/

/-- Some choice of published versions, one for each package, meets all requirements. -/
def Satisfiable (i : Index) (ds : List Dependency) : Prop :=
  ∃ choice : String → Option Version, (∀ name v, choice name = some v → v ∈ i.versions name) ∧
    ∀ d ∈ ds, Holds choice d

/-- A version that suits all requirements on its package can be chosen for it. -/
theorem Suits.satisfiable {i : Index} {name : String} {ds : List Dependency} {v : Version}
    (h : Suits i name ds v) (hown : ∀ d ∈ ds, d.name = name) : Satisfiable i ds := by
  refine ⟨fun other ↦ if other = name then some v else none, fun other w hw ↦ ?_, fun d hd ↦ ?_⟩
  · obtain ⟨rfl, hvw⟩ := Option.ite_none_right_eq_some.mp hw
    exact Option.some.inj hvw ▸ h.1
  · obtain ⟨range, hrange, haccepts⟩ := h.2 d hd
    exact ⟨range, v, hrange, if_pos (hown d hd), haccepts⟩

/-- The oldest version of the package that all requirements accept. -/
def SuitsOldest (i : Index) (name : String) (ds : List Dependency) (v : Version) : Prop :=
  Suits i name ds v ∧ ∀ w, Suits i name ds w → w.precedence v ≠ .lt

/-- Requirements on one package of which the last cannot be met: no version suits them all, or it
refuses the oldest one that suits the others. -/
structure Reports (i : Index) (roots others : List Dependency) (last : Dependency) : Prop where
  own : ∀ d ∈ others ++ [last], d.name = last.name
  asked : ∀ d ∈ others ++ [last], d ∈ roots ∨ ∃ q, Declares i q d
  refuses : (∀ v, ¬Suits i last.name (others ++ [last]) v) ∨
    ∃ v, SuitsOldest i last.name others v ∧ ¬Accepts last v

section

variable {i : Index} {roots : List Dependency}

theorem accepts_iff {r : Requirement} (hr : Asked i roots r) (v : Version) :
    Accepts r.dependency v ↔ r.range.accepts v = true := by
  obtain ⟨d, hofd, _⟩ := hr
  obtain ⟨rfl, hrange⟩ := ofDependency_eq_ok_iff.mp hofd
  simp [Accepts, hrange]

theorem suits_iff {requirements : List Requirement}
    (h : ∀ r ∈ requirements, Asked i roots r) (name : String) (v : Version) :
    Suits i name (requirements.map (·.dependency)) v ↔
      v ∈ i.versions name ∧ ∀ r ∈ requirements, r.range.accepts v = true := by
  rw [Suits, List.forall_mem_map]
  exact and_congr_right fun _ ↦ forall₂_congr fun r hr ↦ accepts_iff (h r hr) v

/-- Requirements of the search make a report when the last of them leaves no candidate, or refuses a
version than which the others accept none older. -/
theorem Reports.of_requirements {l : List Requirement} {r : Requirement}
    (hown : ∀ x ∈ l ++ [r], x.name = r.name) (hasked : ∀ x ∈ l ++ [r], Asked i roots x)
    (hrefuses : (∀ w ∈ i.versions r.name, ¬∀ x ∈ l ++ [r], x.range.accepts w = true) ∨
      ∃ v ∈ i.versions r.name, (∀ x ∈ l, x.range.accepts v = true) ∧
        (∀ w ∈ i.versions r.name, (∀ x ∈ l, x.range.accepts w = true) → w.precedence v ≠ .lt) ∧
        ¬r.range.accepts v = true) :
    Reports i roots (l.map (·.dependency)) r.dependency := by
  have hmap : l.map (·.dependency) ++ [r.dependency] = (l ++ [r]).map (·.dependency) := by simp
  obtain ⟨hl, hr⟩ := List.forall_mem_append.mp hasked
  constructor
  case own =>
    rw [hmap]
    exact List.forall_mem_map.mpr hown
  case asked =>
    rw [hmap]
    refine List.forall_mem_map.mpr fun x hx ↦ ?_
    obtain ⟨d, hofd, hd⟩ := hasked x hx
    rwa [(ofDependency_eq_ok_iff.mp hofd).1]
  case refuses =>
    refine hrefuses.imp (fun hnone v hv ↦ ?_) fun ⟨v, hv, haccepts, holdest, hnot⟩ ↦ ?_
    · rw [hmap, suits_iff hasked] at hv
      exact hnone v hv.1 hv.2
    · refine ⟨v, ⟨(suits_iff hl _ v).mpr ⟨hv, haccepts⟩, fun w hw ↦ ?_⟩, ?_⟩
      · obtain ⟨hmem, hall⟩ := (suits_iff hl _ w).mp hw
        exact holdest w hmem hall
      · rwa [accepts_iff (List.forall_mem_singleton.mp hr)]

/-- The requirements on a package without candidates make a report. -/
theorem reports_of_unmet (hstable : ∀ name, ∀ v ∈ i.versions name, v.isPrerelease = false)
    {read : List Requirement} {s : State} (hsound : Sound i read s)
    (hgrounded : Grounded i roots s) (hgranted : Granted (fun _ ↦ True) s.requirements)
    {name : String} (hpick : pick i.provider s = some (name, [])) :
    ∃ l r, requirementsIn s.requirements name = l ++ [r] ∧
      Reports i roots (l.map (·.dependency)) r.dependency := by
  obtain ⟨x, hx, _⟩ := hgranted.asked name (pick_required hpick)
  have hempty : i.provider.candidates name (requirementsIn s.requirements name) = [] :=
    (pick_spec hpick).2.symm
  have hown := hsound.own name
  have hasked := hgrounded.asked name
  obtain hnil | ⟨l, r, heq⟩ := List.eq_nil_or_concat (requirementsIn s.requirements name)
  · rw [hnil] at hx
    cases hx
  · rw [heq, List.concat_eq_append] at hempty hown hasked ⊢
    obtain rfl : r.name = name := hown r (by simp)
    have hnone := not_accepted_of_candidates_eq_nil (hstable r.name) hempty
    exact ⟨l, r, rfl, .of_requirements hown hasked (.inl hnone)⟩

/-- What the last candidate is rejected for makes a report if all pins are the oldest versions. -/
theorem reports_of_rejected (hstable : ∀ name, ∀ v ∈ i.versions name, v.isPrerelease = false)
    {read : List Requirement} {s : State} (hsound : Sound i read s)
    (hgrounded : Grounded i roots s) (holdest : PinsOldest i s.requirements s.pinned)
    {name : String} {before : List Package} {c : Package} {ds : List Dependency}
    {causes : List Requirement} (hpick : pick i.provider s = some (name, before ++ [c]))
    (hrequires : i.provider.requires c = .ok ds)
    (habsorb : absorb i.provider (pinnedWith s name c ds) s.requirements ds =
      .ok (.error causes)) :
    ∃ l r, causes = l ++ [r] ∧ Reports i roots (l.map (·.dependency)) r.dependency := by
  obtain ⟨part, d, after, met, r, rfl, hmet, hr, rfl, hnot, hsatisfied⟩ := absorb_conflict habsorb
  have hmem : c ∈ i.provider.candidates name (s.requirementsOn name) := by
    rw [← (pick_spec hpick).2]
    exact List.mem_append_right before List.mem_cons_self
  have hread : ReadAs (part ++ [d]) (met ++ [r]) := List.rel_append hmet (.cons hr .nil)
  have hown : ∀ x ∈ requirementsIn ((met ++ [r]).foldl record s.requirements) r.name,
      x.name = r.name := fun x hx ↦ (mem_recordAll.mp hx).elim (hsound.own r.name x) And.right
  have hasked := hgrounded.asked_recordAll hrequires (by simp) hread r.name
  simp only [List.foldl_append, List.foldl_cons, List.foldl_nil, Viable,
    requirementsIn_record_self] at hown hasked hnot ⊢
  refine ⟨_, r, rfl, .of_requirements hown hasked ?_⟩
  cases hq : (pinnedWith s name c (part ++ d :: after)).get? r.name with
  | none =>
    rw [hq] at hnot
    exact .inl (not_accepted_of_candidates_eq_nil (hstable r.name) (not_not.mp hnot))
  | some q =>
    -- The pin meets the other requirements, so it is the oldest version that does.
    rw [hq] at hnot
    obtain ⟨hname, hversion⟩ := hsound.pinned_pinnedWith hmem hq
    refine .inr ⟨q.version, hversion, hsound.satisfied_pinnedWith hmem hsatisfied hq, ?_, ?_⟩
    · exact holdest.pinnedWith hstable hpick _ met r.name q hq
    · simpa [Requirement.isSatisfiedBy, hname] using hnot

/-- Where nothing is found, the latest conflict makes a report. -/
theorem reports_of_search (hstable : ∀ name, ∀ v ∈ i.versions name, v.isPrerelease = false)
    {read : List Requirement} (hread : ReadAs roots read) {limit : Option Nat}
    {ended : Progress} (h : search i.provider limit (start read) {} = .ok (none, ended)) :
    ∃ l r, ended.causes = l ++ [r] ∧ Reports i roots (l.map (·.dependency)) r.dependency := by
  obtain ⟨s, hlast, hconflict⟩ := search_eq_none h
  generalize ended.causes = causes at hconflict ⊢
  have hsteps : Relation.ReflTransGen (Step i.provider) (start read) s :=
    Relation.ReflTransGen.mono (fun _ _ ↦ LastStep.step) _ _ hlast
  have hgranted : Granted (fun _ ↦ True) (start read).requirements :=
    (Granted.empty _).recordAll fun _ _ ↦ trivial
  have holdest : PinsOldest i (start read).requirements (start read).pinned :=
    fun name q hq ↦ by cases hq
  have hsound := (start_sound i read).run hsteps
  have hgrounded := (start_grounded i hread).run hsteps
  cases hconflict with
  | unmet hpick =>
    exact reports_of_unmet hstable hsound hgrounded (hgranted.run (fun _ ↦ trivial) hsteps) hpick
  | rejected hpick hrequires habsorb =>
    exact reports_of_rejected hstable hsound hgrounded (holdest.run hstable hlast) hpick hrequires
      habsorb

variable {others : List Dependency} {last : Dependency}

theorem Reports.satisfiable_iff (h : Reports i roots others last) :
    Satisfiable i (others ++ [last]) ↔ ∃ v, Suits i last.name (others ++ [last]) v := by
  constructor
  · rintro ⟨choice, hpublished, hholds⟩
    obtain ⟨_, v, _, hv, _⟩ := hholds last (by simp)
    refine ⟨v, hpublished _ v hv, fun d hd ↦ ?_⟩
    obtain ⟨range, w, hrange, hw, haccepts⟩ := hholds d hd
    rw [h.own d hd, hv] at hw
    cases hw
    exact ⟨range, hrange, haccepts⟩
  · rintro ⟨v, hv⟩
    exact hv.satisfiable h.own

theorem suits_append_iff {name : String} {v : Version} :
    Suits i name (others ++ [last]) v ↔ Suits i name others v ∧ Accepts last v := by
  rw [Suits, Suits, List.forall_mem_append, List.forall_mem_singleton, and_assoc]

theorem Accepts.of_same {d : Dependency} {v w : Version} (h : Accepts d v)
    (hsame : v.same w = true) (hstable : v.isPrerelease = false) : Accepts d w := by
  obtain ⟨range, hrange, haccepts⟩ := h
  exact ⟨range, hrange, (range.accepts_of_same hsame hstable).trans haccepts⟩

/-- Among stable versions only one precedence is the oldest, and it is refused. -/
theorem Reports.not_accepts (h : Reports i roots others last)
    (hstable : ∀ v ∈ i.versions last.name, v.isPrerelease = false) {v : Version}
    (hv : SuitsOldest i last.name others v) : ¬Accepts last v := by
  intro haccepts
  rcases h.refuses with hnone | ⟨w, hw, hnot⟩
  · exact hnone v (suits_append_iff.mpr ⟨hv.1, haccepts⟩)
  · have hsame : v.same w = true := Version.same_of_not_lt (hw.2 v hv.1) (hv.2 w hw.1)
    exact hnot (haccepts.of_same hsame (hstable v hv.1.1))

/-- The requirements of a report exclude each other just when the last one, among the versions that
suit the others, accepts none that is newer than one it refuses. -/
theorem Reports.not_satisfiable_iff (h : Reports i roots others last)
    (hstable : ∀ v ∈ i.versions last.name, v.isPrerelease = false) :
    ¬Satisfiable i (others ++ [last]) ↔
      ∀ v w, Suits i last.name others v → Suits i last.name others w → v.precedence w = .lt →
        Accepts last w → Accepts last v := by
  rw [h.satisfiable_iff]
  constructor
  · intro hnone v w _ hw _ haccepts
    exact absurd ⟨w, suits_append_iff.mpr ⟨hw, haccepts⟩⟩ hnone
  · rintro hlower ⟨w, hw⟩
    obtain ⟨hothers, haccepts⟩ := suits_append_iff.mp hw
    rcases h.refuses with hnone | ⟨v, hv, hnot⟩
    · exact hnone w hw
    · by_cases hlt : v.precedence w = .lt
      · exact hnot (hlower v w hv.1 hothers hlt haccepts)
      · have hsame : w.same v = true := Version.same_of_not_lt (hv.2 w hothers) hlt
        exact hnot (haccepts.of_same hsame (hstable w hothers.1))

end

/-- Among stable versions, the requirements reported as unsatisfiable are on one package, and the
last of them refuses the oldest version that suits the others. They exclude each other just when it
accepts no version that suits the others and is newer than one it refuses. -/
theorem unsatisfiable_reports_latest (i : Index)
    (hstable : ∀ name, ∀ v ∈ i.versions name, v.isPrerelease = false) (limit : Option Nat)
    (roots causes : List Dependency)
    (h : resolve i.provider limit roots = .error (.unsatisfiable causes)) :
    ∃ others last, causes = others ++ [last] ∧
      (∀ d ∈ causes, d.name = last.name ∧ (d ∈ roots ∨ ∃ q, Declares i q d)) ∧
      (∀ v, SuitsOldest i last.name others v → ¬Accepts last v) ∧
      (¬Satisfiable i causes ↔
        ∀ v w, Suits i last.name others v → Suits i last.name others w →
          v.precedence w = .lt → Accepts last w → Accepts last v) := by
  obtain ⟨read, ended, hread, hsearch, rfl⟩ := search_of_unsatisfiable h
  obtain ⟨l, r, hcauses, hreports⟩ := reports_of_search hstable hread hsearch
  have hreported : (if ended.causes = [] then read else ended.causes).map (·.dependency) =
      l.map (·.dependency) ++ [r.dependency] := by
    rw [hcauses, if_neg (List.append_ne_nil_of_right_ne_nil l (List.cons_ne_nil r []))]
    simp
  rw [hreported]
  refine ⟨_, _, rfl, fun d hd ↦ ⟨hreports.own d hd, hreports.asked d hd⟩, ?_, ?_⟩
  · exact fun v ↦ hreports.not_accepts (hstable _)
  · exact hreports.not_satisfiable_iff (hstable _)

/-- The last requirement is an upper bound, so the conflict is one in itself. -/
theorem unsatisfiable_reports_latest_base :
    (∀ name, ∀ v ∈ conflictingIndex.versions name, v.isPrerelease = false) ∧
      resolve conflictingIndex.provider none [⟨"app", ""⟩] =
        .error (.unsatisfiable [⟨"base", ">=3"⟩, ⟨"base", "<2"⟩]) ∧
      ¬Satisfiable conflictingIndex [⟨"base", ">=3"⟩, ⟨"base", "<2"⟩] := by
  have hstable (name : String) : ∀ v ∈ conflictingIndex.versions name, v.isPrerelease = false :=
    (Index.plain_of_listings (by decide +kernel) name).stable
  have heval : (resolve conflictingIndex.provider none [⟨"app", ""⟩]).map (fun _ ↦ ()) =
      .error (.unsatisfiable [⟨"base", ">=3"⟩, ⟨"base", "<2"⟩]) := by
    rw [resolve_eq_resolveWithin]
    decide +kernel
  have h := eq_error_of_map heval
  obtain ⟨others, last, hcauses, _, _, hexclude⟩ :=
    unsatisfiable_reports_latest conflictingIndex hstable none _ _ h
  obtain ⟨rfl, hlast⟩ := List.append_inj' (show [_] ++ [_] = others ++ [last] from hcauses) rfl
  obtain rfl := List.singleton_injective hlast
  refine ⟨hstable, h, hexclude.mpr fun v w _ hw _ haccepts ↦ ?_⟩
  have hnone : ∀ w ∈ conflictingIndex.versions "base", Accepts ⟨"base", ">=3"⟩ w →
      ¬Accepts ⟨"base", "<2"⟩ w := by decide +kernel
  exact absurd haccepts (hnone w hw.1 (hw.2 _ List.mem_cons_self))

/-- The newest application needs a package that is gone, and the older one a plugin for the
newest. -/
def misleadingIndex : Index where
  packages := .ofList [
    ("app", { versions := .ofList [
      ("1.0.0", { dependencies := ["plugin"] }),
      ("2.0.0", { dependencies := ["gone"] })] }),
    ("plugin", { versions := .ofList [("1.0.0", { dependencies := ["app>=2"] })] })]

/-- Both reported requirements accept the newest application; the package that is gone is not
reported. -/
theorem satisfiable_misleading_report :
    Readable misleadingIndex ∧
      (∀ name, ∀ v ∈ misleadingIndex.versions name, v.isPrerelease = false) ∧
      resolve misleadingIndex.provider (some defaultLimit) [⟨"app", ""⟩] =
        .error (.unsatisfiable [⟨"app", ""⟩, ⟨"app", ">=2"⟩]) ∧
      Satisfiable misleadingIndex [⟨"app", ""⟩, ⟨"app", ">=2"⟩] := by
  have hnewest : Suits misleadingIndex "app" [⟨"app", ""⟩, ⟨"app", ">=2"⟩] ⟨2, 0, 0, none, none⟩ :=
    ⟨by decide +kernel, by decide +kernel⟩
  refine ⟨by decide +kernel, fun name ↦ ?_, eq_error_of_map (f := fun _ ↦ ()) ?_, ?_⟩
  · exact (Index.plain_of_listings (by decide +kernel) name).stable
  · rw [resolve_eq_resolveWithin]
    decide +kernel
  · exact hnewest.satisfiable (by decide)

end SheetPackages.Resolution
