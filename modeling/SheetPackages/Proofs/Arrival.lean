import SheetPackages.Proofs.Json.Written
import SheetPackages.Proofs.Ownership
import SheetPackages.Proofs.Plan.Opening

/-!
# Planned states

Where the changes of a plan lead, whatever operation or checkout the plan was made for. A function
of the plan is there as it was planned, except that one that was there with the same body stays as
it was, although its arguments may be documented in another way. Fingerprints are short, so
different bodies may share one; that no two functions of one name do is assumed.
-/

namespace SheetPackages

open Workbook (State Change)

variable {σ : Type}

namespace Plan

/-! ## Plans that can be made -/

/-- A plan that an operation makes for a state, or a checkout. -/
inductive Made (w : Occasion σ) (s : State) : Plan → Prop
  | operation {o : Operation} {p : Plan} (h : o.plan? w s = some p) : Made w s p
  | checkout {package : String} {requested : Option String} {c : Checkout}
      (h : ((Checkout.make w.supply w.limit s package requested).run.run w.start).1 = .ok c) :
      Made w s c.plan

/-- A plan for a selection, with some functions that no package owns. -/
structure Selecting (supply : Supply (StateM σ)) (start : σ) (s : State) (p made : Plan)
    (sources : FunctionMap) : Prop where
  planned : ∃ project selection renames,
    (∀ selected ∈ selection, Selected.Supplied supply start selected) ∧
      supply.Yields start (Batch.planOf supply s project selection renames) made
  keyed : Keyed sources
  eq : p = { made with functions := made.functions.insertAll sources.entries }

variable {supply : Supply (StateM σ)} {start : σ} {s : State}

theorem selecting_of_yields {project : Project} {pins : List Dependency} {limit : Nat}
    {selection : List Selected} {renames : RenameMaps} {made : Plan}
    (hselection : supply.Yields start (Selected.ofProject supply limit project pins) selection)
    (hmade : supply.Yields start (Batch.planOf supply s project selection renames) made) :
    Selecting supply start s made made .empty := by
  obtain ⟨_, _, _, hsupplied⟩ := (Selected.ofProject_spec limit project pins).of_yields hselection
  exact ⟨⟨project, selection, renames, hsupplied, hmade⟩, fun _ _ h ↦ (nomatch h), rfl⟩

/-- A checkout plans for what the package's project selects, and adds the package's functions. -/
theorem checkout_spec (limit : Nat) (s : State) (package : String) (requested : Option String) :
    supply.Leads start (Checkout.make supply limit s package requested) fun _ c ↦
      ∃ made sources, Selecting supply start s c.plan made sources := by
  refine (Checkout.make_spec limit s package requested).imp fun _ c _ ⟨a, made, _, hopens⟩ ↦ ?_
  obtain ⟨selection, hselection, hmade⟩ := hopens.planned
  obtain ⟨_, _, _, hsupplied⟩ := (Selected.ofProject_spec limit a.project []).of_yields hselection
  exact ⟨made, Checkout.sourcesOf a, ⟨a.project, selection, .empty, hsupplied, hmade⟩,
    hopens.admits.keyed, hopens.plan_eq⟩

/-- A plan that can be made is a removal or a plan for a selection. -/
theorem Made.inversion {w : Occasion σ} {p : Plan} (h : p.Made w s) :
    (∃ targets, removal w.canonical s targets = .ok p) ∨
      ∃ made sources, Selecting w.supply w.start s p made sources := by
  cases h with
  | @operation o p h =>
    cases o with
    | install targets renames =>
      obtain ⟨project, selection, -, hselection, hmade⟩ :=
        (install_spec w.limit s targets renames).run (toOption_eq_some_iff.mp h)
      exact .inr ⟨p, .empty, selecting_of_yields hselection hmade⟩
    | upgrade targets renames =>
      obtain ⟨u, hu, hplan⟩ := Option.bind_eq_some_iff.mp h
      obtain ⟨project, selection, -, hselection, -, hmade⟩ :=
        (upgrade_spec w.limit s targets renames).run (toOption_eq_some_iff.mp hu)
      exact .inr ⟨p, .empty, selecting_of_yields hselection (hmade p hplan)⟩
    | remove targets => exact .inl ⟨targets, toOption_eq_some_iff.mp h⟩
  | checkout h => exact .inr ((checkout_spec w.limit s _ _).2 _ h)

/-! ## Functions of plans -/

theorem Selecting.keyed_functions (hsupply : supply.Keyed start) {p made : Plan}
    {sources : FunctionMap} (h : Selecting supply start s p made sources) : Keyed p.functions := by
  obtain ⟨⟨project, selection, renames, hsupplied, hmade⟩, hkeyed, rfl⟩ := h
  obtain ⟨batch, checked, hbatch, hchecked, rfl⟩ :=
    (Batch.planOf_spec s project selection renames).of_yields hmade
  have hfunctions := Batch.keyed_plan (s := s) (p := project)
    (Batch.forall_of_unpacks hbatch fun selected hmem _ h ↦
      h.keyed hsupply (hsupplied selected hmem)) hchecked
  intro name f hf
  rcases OrderedMap.get?_insertAll hf with hpackage | hsource
  · exact hfunctions name f hpackage
  · exact hkeyed name f (OrderedMap.get?_eq_some_iff.mpr hsource)

/-- Whatever plan is made, its functions stand under their own names. -/
theorem Made.keyed {w : Occasion σ} {p : Plan} (h : p.Made w s) (hsupply : w.supply.Keyed w.start) :
    Keyed p.functions := by
  rcases h.inversion with ⟨targets, hremoval⟩ | ⟨made, sources, hselecting⟩
  · rw [(removes_of_removal hremoval).functions]
    exact fun _ _ hf ↦ nomatch hf
  · exact hselecting.keyed_functions hsupply

/-! ## Where changes lead -/

/-- No planned function shares its fingerprint with one of another body under its name. -/
def Unmistaken (p : Plan) (s : State) : Prop :=
  ∀ name old f, s.functions.get? name = some old → p.functions.get? name = some f →
    old.fingerprint = f.fingerprint → old.canonicalText = f.canonicalText

/-- The functions after the changes of a plan in terms of the plan and of those before. -/
structure Arrived (p : Plan) (before after : FunctionMap) : Prop extends
    p.CarriedOut before after where
  /-- A planned function is there with its body. If it is not the planned one itself, it is the one
  that was there before. -/
  bodies : ∀ name f, Function.isReserved name = false → p.functions.get? name = some f →
    ∃ found, after.get? name = some found ∧ found.SameBody f ∧
      (found = f ∨ before.get? name = some found)
  /-- The planned function itself is there, unless another one of the same body was. -/
  exact : ∀ name f, Function.isReserved name = false → p.functions.get? name = some f →
    (after.get? name = some f ↔ ∀ old, before.get? name = some old → old.SameBody f → old = f)

theorem Unmistaken.sameBody {p : Plan} (h : p.Unmistaken s) {name : String} {old f : Function}
    (hold : s.functions.get? name = some old) (hf : p.functions.get? name = some f) :
    old.fingerprint = f.fingerprint ↔ old.SameBody f :=
  ⟨fun heq ↦ Function.canonicalText_eq_iff.mp (h name old f hold hf heq),
    Function.fingerprint_eq_of_sameBody⟩

theorem arrived_changes {p : Plan} (hkeyed : Keyed p.functions) (hunmistaken : p.Unmistaken s) :
    p.Arrived s.functions (Change.applyAll s.functions (p.changes s)) where
  toCarriedOut := carriedOut_changes s hkeyed
  bodies name f hreserved hf := by
    rw [get?_applyAll_changes hreserved, get?_written_of_provided hkeyed hf]
    cases hold : s.functions.get? name with
    | none => exact ⟨f, rfl, ⟨rfl, rfl, rfl⟩, .inl rfl⟩
    | some old =>
      by_cases hsame : old.fingerprint = f.fingerprint
      · refine ⟨old, ?_, (hunmistaken.sameBody hold hf).mp hsame, .inr rfl⟩
        simp only [if_pos hsame]
      · refine ⟨f, ?_, ⟨rfl, rfl, rfl⟩, .inl rfl⟩
        simp only [if_neg hsame]
  exact name f hreserved hf := by
    rw [get?_applyAll_changes hreserved, get?_written_of_provided hkeyed hf]
    cases hold : s.functions.get? name with
    | none => exact iff_of_true rfl fun _ h ↦ nomatch h
    | some old =>
      simp only [Option.some.injEq, forall_eq']
      by_cases hsame : old.fingerprint = f.fingerprint
      · simp only [if_pos hsame, (hunmistaken.sameBody hold hf).mp hsame, forall_const]
      · simp only [if_neg hsame, true_iff]
        exact fun hbody ↦ absurd ((hunmistaken.sameBody hold hf).mpr hbody) hsame

/-- Whatever plan is made for a state, its changes lead from there to what was planned: the project
and the lockfile of the plan, its functions with their bodies, none that is obsolete, and all others
as they were. A planned function replaces one of its body only if it is the same. -/
theorem Made.arrived {w : Occasion σ} {p : Plan} (h : p.Made w s)
    (hsupply : w.supply.Keyed w.start) (hunmistaken : p.Unmistaken s) :
    p.Arrived s.functions (Change.applyAll s.functions (p.changes s)) :=
  arrived_changes (h.keyed hsupply) hunmistaken

end Plan

/-! ## A function documented anew -/

/-- A function whose argument is documented by the given text. -/
def tint (documentation : String) : Function where
  name := "TINT"
  definition := "=LAMBDA(x, x)"
  arguments := ["x"]
  info := .ofList [("x", { description := documentation })]

/-- An archive of this function, with its argument documented anew. -/
def tintsArchive : Archive where
  project := { name := "colors", version := "1.1.0" }
  functions := .ofList [("TINT", tint "a colour")]
  integrity := "sha256-1"

def redocumented : Occasion Unit :=
  Operation.offlineWith tintsArchive

/-- A workbook in which the function is owned already, with the old documentation. -/
def tinted : State where
  lockfile := ⟨.ofList [("colors", { version := "local", functions := ["TINT"] })]⟩
  functions := .ofList [("TINT", tint "a color")]

def redocumenting : Operation :=
  .install [.archive "/colors.gspkg"] .empty

theorem exists_redocumenting : ∃ p, redocumenting.plan? redocumented tinted = some p ∧
    p.functions.entries = [("TINT", tint "a colour")] := by
  have hplan : (redocumenting.plan? redocumented tinted).map (·.functions.entries) =
      some [("TINT", tint "a colour")] := by decide +kernel
  exact Option.map_eq_some_iff.mp hplan

theorem unmistaken_redocumenting {p : Plan}
    (h : p.functions.entries = [("TINT", tint "a colour")]) : p.Unmistaken tinted := by
  intro name old f hold hf _
  rw [OrderedMap.get?_eq_some_iff] at hold hf
  rw [h, List.mem_singleton, Prod.mk.injEq] at hf
  have hmem : (name, old) = ("TINT", tint "a color") := List.mem_singleton.mp hold
  rw [Prod.mk.injEq] at hmem
  rw [hf.2, hmem.2]
  exact Function.canonicalText_eq_iff.mpr ⟨rfl, rfl, rfl⟩

theorem keyed_redocumented : redocumented.supply.Keyed redocumented.start := by
  rintro path a ⟨_, _, h⟩ name f hf
  cases h
  have hmem := List.mem_singleton.mp (OrderedMap.get?_eq_some_iff.mp hf)
  cases hmem
  rfl

/-- The function is there with its body afterwards. -/
theorem Plan.Made.arrived_redocumenting :
    ∃ p : Plan, p.Made redocumented tinted ∧ p.Unmistaken tinted ∧
      p.Arrived tinted.functions (Change.applyAll tinted.functions (p.changes tinted)) := by
  obtain ⟨p, hplan, hentries⟩ := exists_redocumenting
  have hmade : p.Made redocumented tinted := .operation hplan
  have hunmistaken := unmistaken_redocumenting hentries
  exact ⟨p, hmade, hunmistaken, hmade.arrived keyed_redocumented hunmistaken⟩

/-- The function that was planned is not: its new documentation is lost. -/
theorem Plan.Made.not_arrived_exactly : ∃ (p : Plan) (f : Function), p.Made redocumented tinted ∧
    p.Unmistaken tinted ∧ p.functions.get? "TINT" = some f ∧
      (Change.applyAll tinted.functions (p.changes tinted)).get? "TINT" ≠ some f := by
  obtain ⟨p, hplan, hentries⟩ := exists_redocumenting
  have hmade : p.Made redocumented tinted := .operation hplan
  have hunmistaken := unmistaken_redocumenting hentries
  have hf : p.functions.get? "TINT" = some (tint "a colour") := by
    rw [OrderedMap.get?_eq_some_iff, hentries]
    exact List.mem_singleton_self _
  refine ⟨p, _, hmade, hunmistaken, hf, fun hthere ↦ ?_⟩
  have harrived := Plan.arrived_changes (hmade.keyed keyed_redocumented) hunmistaken
  have hsame := (harrived.exact "TINT" _ (by decide) hf).mp hthere (tint "a color") rfl
    ⟨rfl, rfl, rfl⟩
  exact absurd hsame (by decide)

end SheetPackages
