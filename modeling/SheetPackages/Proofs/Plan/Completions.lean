import SheetPackages.Proofs.Plan.Sealing

/-!
# Completions in any order

The archives of a selection are fetched at the same time, and their completions come in any order.
What is awaited for a slot comes once and nothing else fills the slot; so without failures the batch
has every package of the selection, in its order, whatever comes first. With failures there is no
batch, and planning ends before any function is looked at. It ends with the failure that comes
first, so which one of several it is does depend on the order.
-/

namespace SheetPackages.Batch

variable {σ : Type} {slots : List (Option Unpacked)} {pending arrived : List Completion}
  {results : List (Except Fault Unpacked)} {position : Nat}

/-! ## Fetched selections -/

/-- A selected package and how the fetch of its archive ends, which does not matter to a file. -/
structure Fetched where
  selected : Selected
  ending : Except Fault Archive

/-- The package with its archive read, or why it has none. -/
def Fetched.result (f : Fetched) : Except Fault Unpacked :=
  let name := f.selected.name
  match f.selected.origin with
  | .file path archive =>
    .ok (.ofArchive name Locked.localVersion (Locked.fileOrigin path) archive)
  | .registry version =>
    f.ending.map (.ofArchive name version (Locked.registryOrigin name version))

theorem Fetched.result_of_atHand? {f : Fetched} {u : Unpacked} (h : atHand? f.selected = some u) :
    f.result = .ok u := by
  obtain ⟨⟨name, origin⟩, ending⟩ := f
  cases origin with
  | file path archive =>
    cases h
    rfl
  | registry version => cases h

/-- What is not at hand completes, at its position. -/
def completions (position : Nat) (fetched : List Fetched) : List Completion :=
  ((fetched.zipIdx position).filter fun entry ↦ (atHand? entry.1.selected).isNone).map fun entry ↦
    (entry.2, entry.1.result)

/-- Fetching ends with the completions of fetched packages. -/
theorem exists_fetched (supply : Supply (StateM σ)) (l : Lockfile) (selection : List Selected)
    (position : Nat) (s : σ) : ∃ fetched after, fetched.map Fetched.selected = selection ∧
      (fetchAll supply l position selection).run.run s =
        (.ok (completions position fetched), after) := by
  induction selection generalizing position s with
  | nil => exact ⟨[], s, rfl, rfl⟩
  | cons selected rest ih =>
    obtain ⟨name, origin⟩ := selected
    cases origin with
    | file path archive =>
      obtain ⟨fetched, after, hselected, hrun⟩ := ih (position + 1) s
      exact ⟨⟨⟨name, .file path archive⟩, .ok archive⟩ :: fetched, after,
        congrArg (_ :: ·) hselected, hrun⟩
    | registry version =>
      obtain ⟨fetched, after, hselected, hrun⟩ := ih (position + 1) _
      exact ⟨⟨⟨name, .registry version⟩, _⟩ :: fetched, after,
        congrArg (_ :: ·) hselected, run_fetchAll_registry rfl hrun⟩

/-! ## Slots -/

/-- Slots on their way to the results: what is pending comes to an empty slot, and once for each;
all other slots have their result. -/
structure Awaits (slots : List (Option Unpacked)) (pending : List Completion)
    (results : List (Except Fault Unpacked)) : Prop where
  length_eq : slots.length = results.length
  nodup : (pending.map Prod.fst).Nodup
  awaited : ∀ completion ∈ pending, slots[completion.1]? = some none ∧
    results[completion.1]? = some completion.2
  settled : ∀ (position : Nat) (result : Except Fault Unpacked), results[position]? = some result →
    (position, result) ∈ pending ∨ ∃ u, result = .ok u ∧ slots[position]? = some (some u)

/-- The order does not matter to what is awaited. -/
theorem Awaits.perm (h : Awaits slots pending results) (harrived : arrived.Perm pending) :
    Awaits slots arrived results where
  length_eq := h.length_eq
  nodup := (harrived.map Prod.fst).nodup_iff.mpr h.nodup
  awaited completion hmem := h.awaited completion (harrived.mem_iff.mp hmem)
  settled position result hresult :=
    (h.settled position result hresult).imp_left harrived.mem_iff.mpr

/-- A package that comes fills its slot. -/
theorem Awaits.fill {u : Unpacked} (h : Awaits slots ((position, .ok u) :: pending) results) :
    Awaits (slots.set position (some u)) pending results := by
  obtain ⟨hnew, hnodup⟩ := List.nodup_cons.mp h.nodup
  obtain ⟨⟨hempty, hcomes⟩, hawaited⟩ := List.forall_mem_cons.mp h.awaited
  refine ⟨(List.length_set ..).trans h.length_eq, hnodup, fun completion hmem ↦ ?_,
    fun other result hresult ↦ ?_⟩
  · have hplace : completion.1 ∈ pending.map Prod.fst := List.mem_map_of_mem hmem
    have hne : position ≠ completion.1 := fun heq ↦ hnew (heq ▸ hplace)
    rw [List.getElem?_set_ne hne]
    exact hawaited completion hmem
  · by_cases hother : other = position
    · subst hother
      cases hcomes.symm.trans hresult
      obtain ⟨hlt, -⟩ := List.getElem?_eq_some_iff.mp hempty
      exact .inr ⟨u, rfl, List.getElem?_set_self hlt⟩
    · rw [List.getElem?_set_ne (Ne.symm hother)]
      refine (h.settled other result hresult).imp_left fun hmem ↦ ?_
      exact (List.mem_cons.mp hmem).resolve_left fun heq ↦ hother (congrArg Prod.fst heq)

/-- When nothing is pending any more all slots are filled, with the results. -/
theorem Awaits.eq_map (h : Awaits slots [] results) :
    results = (slots.filterMap id).map .ok := by
  have hfilled : List.Forall₂ (fun slot result ↦ ∃ u, slot = some u ∧ result = .ok u)
      slots results := by
    refine List.forall₂_iff_get.mpr ⟨h.length_eq, fun position hslot hresult ↦ ?_⟩
    obtain ⟨u, hu, hfull⟩ := (h.settled position _ (List.getElem?_eq_getElem hresult)).resolve_left
      nofun
    exact ⟨u, Option.some_inj.mp ((List.getElem?_eq_getElem hslot).symm.trans hfull), hu⟩
  clear h
  induction hfilled with
  | nil => rfl
  | cons hfilled _ ih =>
    obtain ⟨u, rfl, rfl⟩ := hfilled
    exact congrArg (_ :: ·) ih

theorem Awaits.collect_eq (h : Awaits slots arrived results)
    (hcomplete : ∀ fault, .error fault ∉ results) :
    ∃ batch, results = batch.map .ok ∧ collect slots arrived = .ok batch := by
  induction arrived generalizing slots with
  | nil => exact ⟨_, h.eq_map, rfl⟩
  | cons completion rest ih =>
    obtain ⟨position, result⟩ := completion
    cases result with
    | ok u => exact ih h.fill
    | error fault =>
      have hresult := (h.awaited _ List.mem_cons_self).2
      exact absurd (List.mem_of_getElem? hresult) (hcomplete fault)

theorem Awaits.collect_eq_error {fault : Fault} (h : Awaits slots arrived results)
    (hfault : .error fault ∈ results) : ∃ reported, .error reported ∈ results ∧
      collect slots arrived = .error reported := by
  obtain ⟨position, hresult⟩ := List.mem_iff_getElem?.mp hfault
  have hpending := (h.settled position _ hresult).resolve_right nofun
  obtain ⟨place, reported, hmem, hcollect⟩ := Batch.collect_eq_error hpending slots
  exact ⟨reported, List.mem_of_getElem? (h.awaited _ hmem).2, hcollect⟩

theorem awaits_completions (fetched : List Fetched) :
    Awaits ((fetched.map Fetched.selected).map atHand?) (completions 0 fetched)
      (fetched.map Fetched.result) := by
  refine ⟨?_, ?_, fun completion hmem ↦ ?_, fun position result hresult ↦ ?_⟩
  · rw [List.length_map, List.length_map, List.length_map]
  · have hpositions : (fetched.zipIdx.map Prod.snd).Nodup := by
      rw [List.zipIdx_map_snd]
      exact List.nodup_range'
    rw [completions, List.map_map]
    exact hpositions.sublist (List.filter_sublist.map Prod.snd)
  · obtain ⟨⟨f, position⟩, hentry, rfl⟩ := List.mem_map.mp hmem
    obtain ⟨hentry, hawaited⟩ := List.mem_filter.mp hentry
    have hf : fetched[position]? = some f := List.mem_zipIdx_iff_getElem?.mp hentry
    simp only [List.getElem?_map, hf, Option.map_some, Option.isNone_iff_eq_none.mp hawaited,
      and_self]
  · rw [List.getElem?_map] at hresult
    obtain ⟨f, hf, rfl⟩ := Option.map_eq_some_iff.mp hresult
    cases hhand : atHand? f.selected with
    | some u =>
      refine .inr ⟨u, f.result_of_atHand? hhand, ?_⟩
      simp only [List.getElem?_map, hf, Option.map_some, hhand]
    | none =>
      refine .inl (List.mem_map.mpr ⟨(f, position), List.mem_filter.mpr ⟨?_, ?_⟩, rfl⟩)
      · exact List.mem_zipIdx_iff_getElem?.mpr hf
      · exact Option.isNone_iff_eq_none.mpr hhand

/-! ## Batches -/

/-- Planning from the completions on, in the order in which they arrive. -/
def planArrived (s : Workbook.State) (p : Project) (selection : List Selected)
    (renames : RenameMaps) (arrived : List Completion) : Except Fault Plan := do
  let batch ← collect (selection.map atHand?) arrived
  return plan s p ((← check s renames batch).map (withAliases renames))

/-- What comes of fetched packages in every order of their completions: without failures the
same batch, with a package for each that was selected; with failures one of these, and it ends the
planning whatever functions the workbook has. -/
structure Arrives (fetched : List Fetched) : Prop where
  complete : (∀ fault, .error fault ∉ fetched.map Fetched.result) → ∃ batch : List Unpacked,
    fetched.map Fetched.result = batch.map .ok ∧
    ∀ arrived, arrived.Perm (completions 0 fetched) →
      collect ((fetched.map Fetched.selected).map atHand?) arrived = .ok batch
  failed : ∀ fault, .error fault ∈ fetched.map Fetched.result →
    ∀ arrived, arrived.Perm (completions 0 fetched) →
      ∃ reported, .error reported ∈ fetched.map Fetched.result ∧
        collect ((fetched.map Fetched.selected).map atHand?) arrived = .error reported ∧
        ∀ s p renames, planArrived s p (fetched.map Fetched.selected) renames arrived =
          .error reported

theorem run_planOf_of_fetched {supply : Supply (StateM σ)} {s : Workbook.State} {p : Project}
    {selection : List Selected} {renames : RenameMaps} {now after : σ}
    (hrun : (fetchAll supply s.lockfile 0 selection).run.run now = (.ok arrived, after)) :
    (planOf supply s p selection renames).run.run now =
      (planArrived s p selection renames arrived, after) := by
  rw [planOf, ofSelection, bind_assoc, run_bind_of_ok hrun, planArrived]
  cases collect (selection.map atHand?) arrived with
  | error fault => rfl
  | ok batch =>
    change ((do return plan s p ((← check s renames batch).map (withAliases renames)) :
      ExceptT Fault (StateM σ) Plan).run.run after) = _
    change _ = ((check s renames batch).map fun checked ↦
      plan s p (checked.map (withAliases renames)), after)
    cases check s renames batch <;> rfl

/-- However fetches end and in whatever order they complete, the batch is the same and in the order
of the selection, or there is a failure and nothing else. The plan for a selection is made from
the completions of some fetches. -/
theorem materialized_in_any_order :
    (∀ fetched, Arrives fetched) ∧
    ∀ (supply : Supply (StateM σ)) (start : σ) (s : Workbook.State) (selection : List Selected),
      ∃ fetched, fetched.map Fetched.selected = selection ∧ ∀ p renames,
        ((planOf supply s p selection renames).run.run start).1 =
          planArrived s p selection renames (completions 0 fetched) := by
  refine ⟨fun fetched ↦ ⟨fun hcomplete ↦ ?_, fun fault hfault arrived harrived ↦ ?_⟩,
    fun supply start s selection ↦ ?_⟩
  · obtain ⟨batch, hbatch, -⟩ := (awaits_completions fetched).collect_eq hcomplete
    refine ⟨batch, hbatch, fun arrived harrived ↦ ?_⟩
    obtain ⟨other, hother, hcollect⟩ :=
      ((awaits_completions fetched).perm harrived).collect_eq hcomplete
    rw [hcollect, List.map_injective_iff.mpr (fun _ _ ↦ Except.ok.inj) (hother.symm.trans hbatch)]
  · obtain ⟨reported, hreported, hcollect⟩ :=
      ((awaits_completions fetched).perm harrived).collect_eq_error hfault
    refine ⟨reported, hreported, hcollect, fun s p renames ↦ ?_⟩
    rw [planArrived, hcollect]
    rfl
  · obtain ⟨fetched, after, hselected, hrun⟩ := exists_fetched supply s.lockfile selection 0 start
    refine ⟨fetched, hselected, fun p renames ↦ ?_⟩
    rw [run_planOf_of_fetched hrun]

def bareArchive : Archive where
  project := Plan.initialProject
  functions := .empty
  integrity := ""

/-- Two versions from the registry with a file between them. -/
def around (ending : Except Fault Archive) : List Fetched :=
  [⟨⟨"base", .registry "1.0.0"⟩, .ok bareArchive⟩,
    ⟨⟨"notes", .file "notes.gspkg" bareArchive⟩, .ok bareArchive⟩,
    ⟨⟨"tints", .registry "2.0.0"⟩, ending⟩]

/-- The last fetch completes first: its package is still the last one, and its failure is that of
the planning. -/
theorem materialized_in_any_order_reverse :
    let selected := (around (.ok bareArchive)).map Fetched.selected
    (∃ batch, collect (selected.map atHand?) (completions 0 (around (.ok bareArchive))).reverse =
        .ok batch ∧ batch.map Unpacked.name = ["base", "notes", "tints"]) ∧
      ∀ s p renames, planArrived s p selected renames
        (completions 0 (around (.error .noProject))).reverse = .error .noProject := by
  intro selected
  have harrives := (@materialized_in_any_order Unit).1
  constructor
  · have hcomplete (fault : Fault) :
        .error fault ∉ (around (.ok bareArchive)).map Fetched.result := by
      simp [around, Fetched.result, Except.map]
    obtain ⟨batch, hbatch, hcollect⟩ := (harrives _).complete hcomplete
    refine ⟨batch, hcollect _ (List.reverse_perm _), ?_⟩
    have hnames := congrArg (List.map fun result ↦ result.toOption.map Unpacked.name) hbatch
    rw [List.map_map, List.map_map] at hnames
    refine List.map_injective_iff.mpr (fun _ _ ↦ Option.some_inj.mp) ?_
    rw [List.map_map]
    exact hnames.symm
  · have hfault (fault : Fault) :
        .error fault ∈ (around (.error .noProject)).map Fetched.result ↔ fault = .noProject := by
      simp [around, Fetched.result, Except.map]
    obtain ⟨reported, hreported, -, hplan⟩ :=
      (harrives _).failed .noProject ((hfault _).mpr rfl) _ (List.reverse_perm _)
    obtain rfl := (hfault reported).mp hreported
    exact hplan

end SheetPackages.Batch
