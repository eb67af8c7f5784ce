import SheetPackages.Plan.Checkout
import SheetPackages.Proofs.Plan.Batch

/-!
# Opened packages

A checkout fetches the archive of a version, plans what the archive requires, and adds the sources
of the archive to that plan: functions under their own names, which neither the plan nor the
workbook has. Which version is taken when none is requested is not described here.
-/

namespace SheetPackages

open Workbook (State)

/-! ## Plans with sources -/

namespace Plan

/-- The plan with more functions, which no package is to own. -/
def withSources (p : Plan) (sources : FunctionMap) : Plan :=
  { p with functions := p.functions.insertAll sources.entries }

/-- Functions that are new to the plan and to the workbook, under their own names. -/
structure Admits (s : State) (p : Plan) (sources : FunctionMap) : Prop where
  keyed : Keyed sources
  unreserved : ∀ name, sources.contains name = true → Function.isReserved name = false
  unplanned : ∀ name, sources.contains name = true → p.functions.contains name = false
  absent : ∀ name, sources.contains name = true → s.functions.contains name = false

variable {s : State} {p : Plan} {sources : FunctionMap}

theorem Admits.name_eq (h : p.Admits s sources) {entry : String × Function}
    (hentry : entry ∈ sources.entries) : entry.2.name = entry.1 :=
  h.keyed entry.1 entry.2 (OrderedMap.get?_eq_some_iff.mpr hentry)

theorem contains_withSources {name : String} :
    (p.withSources sources).functions.contains name = true ↔
      p.functions.contains name = true ∨ sources.contains name = true := by
  rw [withSources, OrderedMap.contains_insertAll]
  exact or_congr_right OrderedMap.mem_keys_iff_contains

end Plan

/-! ## Checkouts -/

variable {σ : Type} {supply : Supply (StateM σ)} {start : σ} {s : State}

namespace Checkout

/-- The version to check out and what is in its archive. -/
def fetched (supply : Supply (StateM σ)) (package : String) (requested : Option String) :
    ExceptT Fault (StateM σ) (String × Archive) := do
  let version ← version? (← supply.index) package requested
  return (version, ← Batch.fetch supply package version none)

/-- A checkout of an archive: what the archive requires is installed, and its sources are added. -/
structure Opens (supply : Supply (StateM σ)) (start : σ) (limit : Nat) (s : State) (a : Archive)
    (installing : Plan) (c : Checkout) : Prop where
  project : installing.project = a.project
  planned : ∃ selection,
    supply.Yields start (Selected.ofProject supply limit a.project []) selection ∧
      supply.Yields start (Batch.planOf supply s a.project selection .empty) installing
  admits : installing.Admits s (sourcesOf a)
  sources : c.sources = (sourcesOf a).keys
  plan_eq : c.plan = installing.withSources (sourcesOf a)

theorem admits_sourcesOf {p : Plan} {a : Archive} (hkeyed : Keyed a.functions)
    (h : conflicts s p (sourcesOf a) = []) : p.Admits s (sourcesOf a) := by
  have hfree (name : String) (hname : (sourcesOf a).contains name = true) :
      p.functions.contains name = false ∧ s.functions.contains name = false := by
    have hnone := List.filter_eq_nil_iff.mp h name (OrderedMap.mem_keys_iff_contains.mpr hname)
    simpa using hnone
  constructor
  case keyed =>
    intro name f hf
    rw [sourcesOf, OrderedMap.get?_filter, Option.filter_eq_some_iff] at hf
    exact hkeyed name f hf.1
  case unreserved =>
    intro name hname
    obtain ⟨f, hf⟩ := Option.isSome_iff_exists.mp hname
    rw [sourcesOf, OrderedMap.get?_filter, Option.filter_eq_some_iff] at hf
    simpa using hf.2
  case unplanned => exact fun name hname ↦ (hfree name hname).1
  case absent => exact fun name hname ↦ (hfree name hname).2

/-- A checkout opens the archive that is fetched for it. -/
theorem make_spec (limit : Nat) (s : State) (package : String) (requested : Option String) :
    supply.Leads start (make supply limit s package requested) fun _ c ↦
      ∃ a installing, ((fetched supply package requested).run.run start).1 = .ok (c.version, a) ∧
        Opens supply start limit s a installing c := by
  rw [make]
  split
  · exact .throw
  · refine (Supply.ensures_index start .start).exact.bind fun opened i hopened ⟨hi, _⟩ ↦ ?_
    refine .except_bind fun version hversion ↦ ?_
    refine (Batch.fetch_spec package version none opened hopened).exact.bind
      fun after a hafter ⟨ha, _, _, _, hread⟩ ↦ ?_
    have hreached := hopened.trans hafter
    have hfetched : ((fetched supply package requested).run.run start).1 = .ok (version, a) := by
      rw [fetched, run_bind_of_ok hi, hversion]
      exact congrArg Prod.fst (run_bind_of_ok ha _)
    refine ((Selected.ofProject_spec limit a.project []).yields after hreached).bind
      fun resolved selection hresolved hselection ↦ ?_
    have hresolved := hreached.trans hresolved
    refine ((Batch.planOf_spec s a.project selection .empty).yields resolved hresolved).bind
      fun _ installing _ hinstalling ↦ ?_
    simp only
    split
    · next hconflicts =>
      refine .pure
        ⟨a, installing, hfetched, ?_, ⟨selection, hselection, hinstalling⟩, ?_, rfl, rfl⟩
      · obtain ⟨_, _, _, _, rfl⟩ :=
          (Batch.planOf_spec s a.project selection .empty).of_yields hinstalling
        rfl
      · exact admits_sourcesOf (Archive.keyed_ofBytes hread) hconflicts
    · exact .throw

end Checkout

end SheetPackages
