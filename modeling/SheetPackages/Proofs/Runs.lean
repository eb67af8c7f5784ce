import SheetPackages.Proofs.Plan.Carrying

/-!
# Runs of operations

Installations, upgrades and removals, one after the other, on a workbook that begins with functions
of its own. Whatever plan an operation makes, the workbook is consistent after it: every function is
the user's, as it was in the beginning, or is owned by exactly one package. The texts of names and
requirements must be such that list cells can keep them. That an operation succeeds is not shown.
-/

namespace SheetPackages

open Workbook (State Change)

variable {σ : Type}

/-! ## Operations -/

/-- What a user asks for. -/
inductive Operation where
  | install (targets : List Target) (renames : RenameMaps)
  | upgrade (targets : List String) (renames : RenameMaps)
  | remove (targets : List String)

/-- What an operation meets: a supply in some state, a limit for resolutions, and where paths lead
to. -/
structure Occasion (σ : Type) where
  supply : Supply (StateM σ)
  start : σ
  limit : Nat
  canonical : String → Option String

namespace Operation

/-- The plan for an operation; nothing if planning fails or everything is up to date. -/
def plan? (w : Occasion σ) (s : State) : Operation → Option Plan
  | install targets renames =>
    ((Plan.install w.supply w.limit s targets renames).run.run w.start).1.toOption
  | upgrade targets renames =>
    ((Plan.upgrade w.supply w.limit s targets renames).run.run w.start).1.toOption.bind
      Plan.Upgrade.plan
  | remove targets => (Plan.removal w.canonical s targets).toOption

/-- The functions after an operation, which is planned for the workbook as it is found. -/
def perform (w : Occasion σ) (functions : FunctionMap) (o : Operation) : FunctionMap :=
  let s := State.ofFunctions functions
  match o.plan? w s with
  | some p => Change.applyAll functions (p.changes s)
  | none => functions

/-- Names, aliases and requirements that the operation brings in can be kept in list cells. -/
def Admissible (w : Occasion σ) : Operation → Prop
  | install targets renames => w.supply.Orderly w.start ∧ ValidAliases renames ∧
      ∀ target ∈ targets, Plan.Recordable w.supply w.start target
  | upgrade _ renames => w.supply.Orderly w.start ∧ ValidAliases renames
  | remove _ => True

theorem fits_plan? {w : Occasion σ} {o : Operation} (ho : o.Admissible w) {s : State}
    (hs : s.Orderly) {p : Plan} (h : o.plan? w s = some p) : p.Fits s := by
  cases o with
  | install targets renames =>
    obtain ⟨hsupply, hrenames, htargets⟩ := ho
    exact (Plan.fits_install hsupply w.limit hs htargets hrenames).run
      (toOption_eq_some_iff.mp h)
  | upgrade targets renames =>
    obtain ⟨hsupply, hrenames⟩ := ho
    obtain ⟨u, hu, hplan⟩ := Option.bind_eq_some_iff.mp h
    exact (Plan.fits_upgrade hsupply w.limit hs targets hrenames).run
      (toOption_eq_some_iff.mp hu) p hplan
  | remove targets => exact Plan.fits_removal hs (toOption_eq_some_iff.mp h)

end Operation

/-- The functions after some operations, each on its own occasion. -/
def performAll (functions : FunctionMap) (steps : List (Occasion σ × Operation)) :
    FunctionMap :=
  steps.foldl (fun functions step ↦ step.2.perform step.1 functions) functions

/-! ## Consistency -/

/-- The functions that packages own according to the lockfile that is read. -/
def owned (functions : FunctionMap) : List String :=
  (State.ofFunctions functions).lockfile.ownedFunctions

/-- Every function of a workbook that began with `initial` has its place. -/
structure Consistent (initial functions : FunctionMap) : Prop where
  /-- No function is owned twice. -/
  exclusive : (owned functions).Nodup
  /-- Owned functions are there. -/
  present : ∀ name ∈ owned functions, functions.contains name = true
  /-- Owned functions are none of the workbook's bookkeeping. -/
  unreserved : ∀ name ∈ owned functions, Function.isReserved name = false
  /-- The user's functions are there as they were, and no package owns them. -/
  untouched : ∀ name f, initial.get? name = some f →
    functions.get? name = some f ∧ name ∉ owned functions
  /-- Nothing else is there. -/
  accounted : ∀ name, functions.contains name = true →
    Function.isReserved name = true ∨ initial.contains name = true ∨ name ∈ owned functions

variable {initial functions after : FunctionMap}

/-- What is read from a workbook in which a fitting plan has been carried out. -/
theorem ofFunctions_of_carriedOut {s : State} {p : Plan} (hp : p.Fits s)
    (h : p.CarriedOut functions after) :
    State.ofFunctions after = ⟨some p.project, Workbook.rereadAll p.lockfile, after⟩ := by
  have hproject : Workbook.project? after = some p.project := by
    rw [Workbook.project?, h.project, Option.bind_some]
    exact Workbook.decodeProject?_encodeProject hp.project.extra hp.project.storable
  have hlockfile : Workbook.lockfile? after = some (Workbook.rereadAll p.lockfile) := by
    rw [Workbook.lockfile?, h.lockfile, Option.bind_some]
    exact Workbook.decodeLockfile?_encodeLockfile (fun name hname ↦ (hp.names name hname).1)
      hp.exclusive
  rw [State.ofFunctions, hproject, hlockfile]
  rfl

theorem owned_of_carriedOut {s : State} {p : Plan} (hp : p.Fits s)
    (h : p.CarriedOut functions after) : owned after = p.lockfile.ownedFunctions := by
  rw [owned, ofFunctions_of_carriedOut hp h, Workbook.ownedFunctions_rereadAll]

theorem orderly_of_carriedOut {s : State} {p : Plan} (hp : p.Fits s)
    (h : p.CarriedOut functions after) : (State.ofFunctions after).Orderly := by
  rw [ofFunctions_of_carriedOut hp h]
  constructor
  · intro q hq
    exact Option.some.inj hq ▸ hp.project
  · rw [Workbook.ownedFunctions_rereadAll]
    exact hp.exclusive
  · rw [Workbook.ownedFunctions_rereadAll]
    exact hp.names

/-- One plan keeps a workbook consistent. -/
theorem Consistent.of_carriedOut (hinitial : ∀ name ∈ initial.keys, Function.isReserved name = false)
    (hbefore : Consistent initial functions) {p : Plan} (hp : p.Fits (State.ofFunctions functions))
    (h : p.CarriedOut functions after) : Consistent initial after := by
  have howned := owned_of_carriedOut hp h
  constructor
  case exclusive =>
    rw [howned]
    exact hp.exclusive
  case unreserved =>
    rw [howned]
    exact fun name hname ↦ (hp.names name hname).2
  case present =>
    rw [howned]
    exact fun name hname ↦ h.contains_of_owned hp hbefore.present hname
  case untouched =>
    intro name f hf
    have hreserved := hinitial name (OrderedMap.mem_keys_of_get? hf)
    obtain ⟨hthere, hfree⟩ := hbefore.untouched name f hf
    have hcontains : functions.contains name = true := by
      rw [OrderedMap.contains, hthere]
      rfl
    obtain ⟨hsame, hunowned⟩ := h.get?_of_not_owned hp hreserved hcontains hfree
    rw [howned, hsame]
    exact ⟨hthere, hunowned⟩
  case accounted =>
    intro name hname
    rw [howned]
    cases hreserved : Function.isReserved name with
    | true => exact .inl rfl
    | false =>
      rcases h.owned_of_contains hp hreserved hname with hnew | ⟨hthere, hfree⟩
      · exact .inr (.inr hnew)
      · rcases hbefore.accounted name hthere with hbookkeeping | huser | hold
        · rw [hreserved] at hbookkeeping
          cases hbookkeeping
        · exact .inr (.inl huser)
        · exact absurd hold hfree

/-! ## Runs -/

/-- One operation keeps a workbook consistent, and leaves it such that the next one does. -/
theorem Consistent.perform (hinitial : ∀ name ∈ initial.keys, Function.isReserved name = false)
    (hbefore : Consistent initial functions) (hs : (State.ofFunctions functions).Orderly)
    {w : Occasion σ} {o : Operation} (ho : o.Admissible w) :
    Consistent initial (o.perform w functions) ∧
      (State.ofFunctions (o.perform w functions)).Orderly := by
  cases hplan : o.plan? w (State.ofFunctions functions) with
  | none =>
    have hsame : o.perform w functions = functions := by
      simp only [Operation.perform, hplan]
    rw [hsame]
    exact ⟨hbefore, hs⟩
  | some p =>
    have hafter : o.perform w functions =
        Change.applyAll functions (p.changes (State.ofFunctions functions)) := by
      simp only [Operation.perform, hplan]
    have hp := Operation.fits_plan? ho hs hplan
    have hcarried : p.CarriedOut functions (o.perform w functions) := by
      rw [hafter]
      exact Plan.carriedOut_changes (State.ofFunctions functions) hp.keyed
    exact ⟨hbefore.of_carriedOut hinitial hp hcarried, orderly_of_carriedOut hp hcarried⟩

/-- A workbook without reserved functions has no project, and no package owns anything in it. -/
theorem ofFunctions_initial (hinitial : ∀ name ∈ initial.keys, Function.isReserved name = false) :
    State.ofFunctions initial = ⟨none, {}, initial⟩ := by
  have hnone (name : String) (hname : Function.isReserved name = true) :
      initial.get? name = none := by
    cases hget : initial.get? name with
    | none => rfl
    | some f =>
      rw [hinitial name (OrderedMap.mem_keys_of_get? hget)] at hname
      cases hname
  rw [State.ofFunctions, Workbook.project?, Workbook.lockfile?,
    hnone Function.projectName (by decide), hnone Function.lockName (by decide)]
  rfl

theorem consistent_initial (hinitial : ∀ name ∈ initial.keys, Function.isReserved name = false) :
    Consistent initial initial := by
  have howned : owned initial = [] := by
    rw [owned, ofFunctions_initial hinitial]
    rfl
  constructor <;> rw [howned]
  case exclusive => exact List.nodup_nil
  case present => exact fun _ h ↦ absurd h List.not_mem_nil
  case unreserved => exact fun _ h ↦ absurd h List.not_mem_nil
  case untouched => exact fun name f hf ↦ ⟨hf, List.not_mem_nil⟩
  case accounted => exact fun name hname ↦ .inr (.inl hname)

/-- A workbook that begins without reserved functions is consistent after any run of operations. -/
theorem consistent_performAll
    (hinitial : ∀ name ∈ initial.keys, Function.isReserved name = false)
    {steps : List (Occasion σ × Operation)}
    (hsteps : ∀ step ∈ steps, step.2.Admissible step.1) :
    Consistent initial (performAll initial steps) := by
  have hrun (functions : FunctionMap) (hbefore : Consistent initial functions)
      (hs : (State.ofFunctions functions).Orderly) :
      Consistent initial (performAll functions steps) := by
    induction steps generalizing functions with
    | nil => exact hbefore
    | cons step rest ih =>
      obtain ⟨hstep, hrest⟩ := List.forall_mem_cons.mp hsteps
      obtain ⟨hnext, horderly⟩ := hbefore.perform hinitial hs hstep
      exact ih hrest (step.2.perform step.1 functions) hnext horderly
  apply hrun initial (consistent_initial hinitial)
  rw [ofFunctions_initial hinitial]
  exact ⟨fun p h ↦ (nomatch h), List.nodup_nil, fun _ h ↦ absurd h List.not_mem_nil⟩

/-! ## A run -/

/-- An archive of two functions. -/
def colorsArchive : Archive where
  project := { name := "colors", version := "1.0.0" }
  functions := .ofList [("MIX", { name := "MIX", definition := "=TINT(1)" }),
    ("TINT", { name := "TINT", definition := "=LAMBDA(x, x)" })]
  integrity := "sha256-0"

/-- Without a registry, but with the archive in every file. -/
def offline : Occasion Unit where
  supply :=
    { index := throw (.ofSystem "offline")
      archive := fun _ _ ↦ throw (.ofSystem "offline")
      locate := pure
      file := fun _ ↦ pure colorsArchive }
  start := ()
  limit := 100
  canonical := some

/-- The archive is installed, with an alias for one of its functions, and removed again. -/
def trial : List (Occasion Unit × Operation) :=
  [(offline, .install [.archive "/colors.gspkg"]
      (Alias.addSpec .empty ⟨"colors", "MIX", "BLEND"⟩)),
    (offline, .remove ["colors"])]

/-- A workbook with a function of the user's that is named like one of the archive. -/
def palette : FunctionMap :=
  .ofList [("MIX", { name := "MIX", definition := "=1" })]

theorem orderly_offline : offline.supply.Orderly offline.start := by
  have hfile {path : String} {a : Archive}
      (h : offline.supply.Yields offline.start (offline.supply.file path) a) :
      a = colorsArchive := by
    obtain ⟨_, _, h⟩ := h
    cases h
    rfl
  constructor
  · intro path a h
    rw [hfile h]
    intro name f hf
    have hentries : ∀ entry ∈ colorsArchive.functions.entries, entry.2.name = entry.1 := by decide
    exact hentries (name, f) (OrderedMap.get?_eq_some_iff.mp hf)
  · intro path a h
    rw [hfile h]
    decide
  · intro name version data label a h
    obtain ⟨_, _, h⟩ := h
    cases h

theorem recordable_colors :
    Plan.Recordable offline.supply offline.start (.archive "/colors.gspkg") := by
  intro d hd
  obtain ⟨_, _, hd⟩ := hd
  cases hd
  exact ⟨by decide, Dependency.separable_onArchive "colors" "/colors.gspkg"⟩

theorem admissible_trial : ∀ step ∈ trial, step.2.Admissible step.1 := by
  intro step hstep
  rw [trial, List.mem_cons, List.mem_singleton] at hstep
  rcases hstep with rfl | rfl
  · refine ⟨orderly_offline, ValidAliases.empty.addSpec (by decide), fun target htarget ↦ ?_⟩
    rw [List.mem_singleton.mp htarget]
    exact recordable_colors
  · exact trivial

theorem consistent_trial :
    Consistent palette (performAll palette trial) ∧
      owned (performAll palette (trial.take 1)) = ["BLEND", "TINT"] :=
  ⟨consistent_performAll (by decide) admissible_trial, by decide +kernel⟩

end SheetPackages
