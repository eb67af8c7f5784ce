import SheetPackages.Proofs.Resolution.Completeness

/-!
# The newest packages that fit

A resolution pins newer versions in preference to older ones. As long as the pins agree with an
assignment that meets all requirements, the next pin is not older than the version assigned to its
package: the newer candidates were tried before it and given up, which does not happen to an
assigned version. Versions must be stable and of different precedence within a package, as where a
resolution gives up altogether.

Nothing is said of pins behind the first one that differs from the assignment, nor of the order in
which packages are picked.
-/

namespace SheetPackages.Resolution

/-- Up to the first pin at another version than the assigned one, no assigned version is newer than
the pin of its package. -/
def Newest (choice : String → Option Version) : List Package → Prop
  | [] => True
  | q :: rest => (∀ v, choice q.name = some v → q.version.precedence v ≠ .lt) ∧
      (choice q.name = some q.version → Newest choice rest)

theorem Newest.not_newer {choice : String → Option Version} {before after : List Package}
    {q : Package} (h : Newest choice (before ++ q :: after))
    (hbefore : ∀ p ∈ before, choice p.name = some p.version) {v : Version}
    (hv : choice q.name = some v) : q.version.precedence v ≠ .lt := by
  induction before with
  | nil => exact h.1 v hv
  | cons p rest ih =>
    obtain ⟨hp, hrest⟩ := List.forall_mem_cons.mp hbefore
    exact ih (h.2 hp) hrest

theorem values_pinnedWith {s : State} {name : String} (hfree : s.pinned.contains name = false)
    (c : Package) (requirements : List Dependency) :
    (pinnedWith s name c requirements).values = s.pinned.values ++ [settled c requirements] := by
  unfold OrderedMap.values pinnedWith
  rw [OrderedMap.entries_insert_of_not_contains _ hfree, List.map_append]
  rfl

section

variable {i : Index} {choice : String → Option Version} {granted : Requirement → Prop}

/-- A candidate that is entered after others were given up is not older than the assigned one. -/
theorem Agrees.not_newer (hguides : Guides i choice granted) {s : State}
    (h : Agrees choice granted s) {name : String} {before after : List Package} {c : Package}
    (hpick : pick i.provider s = some (name, before ++ c :: after))
    (hbefore : ∀ b ∈ before, Rejects i.provider s name b ∨ ∃ t, Pins i.provider s name b t)
    (habandoned : ∀ b ∈ before, ∀ t, Pins i.provider s name b t → Explored i.provider t (.ok none))
    {v : Version} (hv : choice name = some v) : c.version.precedence v ≠ .lt := by
  intro hnewer
  obtain ⟨b, hmem, rfl, hb⟩ := h.mem_picked hguides hpick
  rw [hv] at hb
  cases hb
  have hdescending := Index.pairwise_candidates i b.name (s.requirementsOn b.name)
  rw [← (pick_spec hpick).2, List.pairwise_append, List.pairwise_cons] at hdescending
  rcases List.mem_append.mp hmem with hmem | hmem
  · -- The assigned version was given up before `c`.
    rcases hbefore b hmem with hrejects | ⟨t, hpins⟩
    · exact h.not_rejects hguides hv hrejects
    · exact (habandoned b hmem t hpins).not_agrees hguides rfl (h.pin hguides hv hpins)
  · rcases List.mem_cons.mp hmem with rfl | hmem
    · simp at hnewer
    · exact Std.OrientedCmp.not_lt_of_lt (hdescending.2.1.1 b hmem) hnewer

/-- What a search pins in agreement with an assignment that guides it is the newest that fits. -/
theorem Explored.newest (hguides : Guides i choice granted) {s : State}
    {result : Except Fault (Option State)} (h : Explored i.provider s result) {done : State}
    (hresult : result = .ok (some done)) :
    ∃ pins, done.pinned.values = s.pinned.values ++ pins ∧
      (Agrees choice granted s → Newest choice pins) := by
  induction h with
  | finished =>
    cases hresult
    exact ⟨[], (List.append_nil _).symm, fun _ ↦ trivial⟩
  | outOfRounds => cases hresult
  | failed => cases hresult
  | exhausted => cases hresult
  | @entered s t name before after c _ hpick hbefore habandoned hpins _ _ _ ih =>
    obtain ⟨pins, hvalues, hnewest⟩ := ih hresult
    obtain ⟨hfree, hfound⟩ := pick_spec hpick
    obtain ⟨rfl, _⟩ := Index.of_mem_candidates (hfound ▸ List.mem_append_cons_self)
    have hpin := hpins
    obtain @⟨requirements, _, _, _⟩ := hpin
    rw [values_pinnedWith hfree, List.append_assoc] at hvalues
    refine ⟨_, hvalues, fun hagrees ↦ ⟨fun v hv ↦ ?_, fun hc ↦ ?_⟩⟩
    · exact hagrees.not_newer hguides hpick hbefore habandoned hv
    · have hc : choice c.name = some c.version := hc
      exact hnewest (hagrees.pin hguides hc hpins)

end

/-- No assignment that meets all requirements agrees with the pins before some pin and gives its
package a newer version. -/
theorem not_newer_of_resolve (i : Index) (hplain : ∀ name, i.Plain name) (limit : Option Nat)
    (roots : List Dependency) (outcome : Outcome)
    (h : resolve i.provider limit roots = .ok outcome) (before after : List Package) (q : Package)
    (hpackages : outcome.packages = before ++ q :: after) :
    ¬∃ choice v, Satisfies i roots choice ∧ (∀ p ∈ before, choice p.name = some p.version) ∧
      choice q.name = some v ∧ q.version.precedence v = .lt := by
  rintro ⟨choice, v, hsat, hbefore, hv, hnewer⟩
  obtain ⟨read, s, hread, hvalues, hexplored⟩ := explored_of_resolve h
  obtain ⟨pins, hpins, hnewest⟩ := hexplored.newest (hsat.guides hplain) rfl
  have hstart : (start read).pinned.values = [] := rfl
  rw [hstart, List.nil_append, ← hvalues, hpackages] at hpins
  subst hpins
  exact (hnewest (hsat.start_agrees hread)).not_newer hbefore hv hnewer

/-- The newest frame needs a bridge, and every bridge a package that is gone. -/
def detourIndex : Index where
  packages := .ofList [
    ("app", { versions := .ofList [("1.0.0", { dependencies := ["frame", "panel<3"] })] }),
    ("frame", { versions := .ofList [
      ("1.0.0", {}),
      ("2.0.0", { dependencies := ["bridge"] })] }),
    ("bridge", { versions := .ofList [("1.0.0", { dependencies := ["gone"] })] }),
    ("panel", { versions := .ofList [("1.0.0", {}), ("2.0.0", {}), ("2.1.0", {}), ("3.0.0", {})] })]

theorem resolve_detourIndex : ∃ outcome app frame panel,
    (∀ name, detourIndex.Plain name) ∧
      resolve detourIndex.provider none [⟨"app", ""⟩] = .ok outcome ∧
      outcome.packages = [app, frame, panel] ∧
      [app, frame, panel].map (fun q ↦ (q.name, q.version.text)) =
        [("app", "1.0.0"), ("frame", "1.0.0"), ("panel", "2.1.0")] ∧
      ¬∃ choice v, Satisfies detourIndex [⟨"app", ""⟩] choice ∧
        (∀ p ∈ [app], choice p.name = some p.version) ∧ choice frame.name = some v ∧
          frame.version.precedence v = .lt := by
  have hplain : ∀ name, detourIndex.Plain name := Index.plain_of_listings (by decide +kernel)
  let app : Package := { name := "app", version := ⟨1, 0, 0, none, none⟩,
                         dependencies := ["frame", "panel<3"] }
  let frame : Package := { name := "frame", version := ⟨1, 0, 0, none, none⟩ }
  let panel : Package := { name := "panel", version := ⟨2, 1, 0, none, none⟩ }
  have heval : (resolve detourIndex.provider none [⟨"app", ""⟩]).toOption.map
      (fun outcome ↦ outcome.packages) = some [app, frame, panel] := by
    rw [resolve_eq_resolveWithin]
    decide +kernel
  cases h : resolve detourIndex.provider none [⟨"app", ""⟩] with
  | error fault =>
    rw [h] at heval
    cases heval
  | ok outcome =>
    rw [h] at heval
    have hpackages : outcome.packages = [app] ++ frame :: [panel] := Option.some.inj heval
    exact ⟨outcome, app, frame, panel, hplain, rfl, hpackages, by decide +kernel,
      not_newer_of_resolve _ hplain _ _ _ h _ _ _ hpackages⟩

end SheetPackages.Resolution
