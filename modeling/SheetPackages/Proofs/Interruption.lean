import SheetPackages.Proofs.Arrival

/-!
# Interrupted plans

What a workbook holds when only the first changes of a plan have been carried out. The old lockfile
is in force until the last change, or none if the changes take it away. It claims no function that
has still to be written; but obsolete functions are deleted before all other changes, so it may
claim some of these after they have gone. A plan that puts a function of its own in the place of the
lockfile is not described.
-/

namespace SheetPackages

open Workbook (State Change)

namespace Workbook.Change

variable {changes : List Change} {name : String}

/-- What is only ever deleted is as it was, or gone. -/
theorem get?_applyAll_of_deleted (h : ∀ c ∈ changes, c.name = name → c = .delete name)
    (functions : FunctionMap) : (applyAll functions changes).get? name = functions.get? name ∨
      (applyAll functions changes).get? name = none := by
  induction changes generalizing functions with
  | nil => exact .inl rfl
  | cons c rest ih =>
    obtain ⟨hc, hrest⟩ := List.forall_mem_cons.mp h
    have hstep : (apply functions c).get? name = functions.get? name ∨
        (apply functions c).get? name = none := by
      by_cases hname : c.name = name
      · rw [hc hname]
        exact .inr ((OrderedMap.get?_erase functions name name).trans (if_pos rfl))
      · exact .inl (get?_apply_of_ne (Ne.symm hname) functions)
    rcases ih hrest (apply functions c) with hsame | hgone
    · exact hstep.imp hsame.trans hsame.trans
    · exact .inr hgone

/-- What is not deleted stays there. -/
theorem contains_applyAll_of_not_deleted (h : .delete name ∉ changes) {functions : FunctionMap}
    (hthere : functions.contains name = true) :
    (applyAll functions changes).contains name = true := by
  induction changes generalizing functions with
  | nil => exact hthere
  | cons c rest ih =>
    rw [List.mem_cons, not_or] at h
    obtain ⟨hc, hrest⟩ := h
    refine ih hrest ?_
    cases c with
    | create f | update f =>
      exact (OrderedMap.contains_insert functions f.name name f).trans
        (Bool.or_eq_true_iff.mpr (.inr hthere))
    | delete other =>
      have hne : name ≠ other := fun heq ↦ hc (heq ▸ rfl)
      rwa [OrderedMap.contains, apply, OrderedMap.get?_erase, if_neg hne]

end Workbook.Change

/-! ## Lockfiles in force -/

variable {functions after : FunctionMap}

/-- What is owned depends on the function that keeps the lockfile alone. -/
theorem owned_eq_of_get?_eq
    (h : after.get? Function.lockName = functions.get? Function.lockName) :
    owned after = owned functions := by
  rw [owned, owned, State.ofFunctions, State.ofFunctions, Workbook.lockfile?, Workbook.lockfile?, h]

theorem owned_of_get?_eq_none (h : after.get? Function.lockName = none) : owned after = [] := by
  rw [owned, State.ofFunctions, Workbook.lockfile?, h]
  rfl

/-- No function is owned twice, whatever the workbook holds. -/
theorem nodup_owned (functions : FunctionMap) : (owned functions).Nodup := by
  rw [owned, State.ofFunctions]
  cases h : Workbook.lockfile? functions with
  | none => exact List.nodup_nil
  | some l =>
    obtain ⟨f, -, hread⟩ := Option.bind_eq_some_iff.mp h
    exact Workbook.nodup_of_decodeLockfile? hread

namespace Plan

variable {σ : Type} {w : Occasion σ} {s : State} {p : Plan}

/-! ## Beginnings of the changes -/

/-- All changes but the last one. -/
def preceding (s : State) (p : Plan) : List Change :=
  p.deleted.map .delete ++ writings s p ++ [.update (Workbook.encodeProject p.project)]

theorem changes_eq_append (s : State) (p : Plan) : p.changes s =
    preceding s p ++ [.update (Workbook.encodeLockfile p.lockfile)] := by
  rw [changes, preceding, List.append_assoc _ [_] [_]]
  rfl

theorem take_changes {n : Nat} (hn : n < (p.changes s).length) :
    (p.changes s).take n = (preceding s p).take n := by
  rw [changes_eq_append, List.length_append, List.length_singleton] at hn
  rw [changes_eq_append, List.take_append_of_le_length (Nat.le_of_lt_succ hn)]

/-- Before the lockfile is written, it can only be deleted. -/
theorem eq_delete_of_mem_preceding (hkeyed : Keyed p.functions)
    (hlock : p.functions.contains Function.lockName = false) {c : Change}
    (hc : c ∈ preceding s p) (hname : c.name = Function.lockName) :
    c = .delete Function.lockName := by
  rcases List.mem_append.mp hc with hearly | hproject
  · rcases List.mem_append.mp hearly with hdeleted | hwritten
    · obtain ⟨other, -, rfl⟩ := List.mem_map.mp hdeleted
      exact congrArg Change.delete hname
    · have hthere := contains_of_mem_writings hkeyed hwritten
      rw [hname, hlock] at hthere
      cases hthere
  · rw [List.mem_singleton.mp hproject] at hname
    have hdifferent : Function.projectName ≠ Function.lockName := by decide
    exact absurd hname hdifferent

/-- Deletions come first, in their order. -/
theorem mem_take_deleted {n : Nat} {name : String} (h : .delete name ∈ (preceding s p).take n) :
    name ∈ p.deleted.take n := by
  rw [preceding, List.append_assoc, List.take_append, List.mem_append] at h
  rcases h with hdeleted | hwritten
  · rw [← List.map_take] at hdeleted
    obtain ⟨other, hother, heq⟩ := List.mem_map.mp hdeleted
    cases heq
    exact hother
  · rcases List.mem_append.mp (List.mem_of_mem_take hwritten) with hwriting | hrecord
    · obtain ⟨entry, -, hwriting⟩ := List.mem_filterMap.mp hwriting
      cases written?_of_writing? hwriting
    · cases List.mem_singleton.mp hrecord

/-- The functions of a workbook after the first changes of a plan for it. -/
def interrupted (p : Plan) (functions : FunctionMap) (n : Nat) : FunctionMap :=
  Change.applyAll functions ((p.changes (State.ofFunctions functions)).take n)

/-- What is owned when a plan is interrupted was owned before, and is there unless it has been
deleted. -/
theorem contains_interrupted (hkeyed : Keyed p.functions)
    (hlock : p.functions.contains Function.lockName = false)
    (hpresent : ∀ name ∈ owned functions, functions.contains name = true) {n : Nat}
    (hn : n < (p.changes (State.ofFunctions functions)).length) {name : String}
    (hname : name ∈ owned (p.interrupted functions n)) :
    name ∈ owned functions ∧
      ((p.interrupted functions n).contains name = true ∨ name ∈ p.deleted.take n) := by
  rw [interrupted, take_changes hn] at hname ⊢
  have hold : name ∈ owned functions := by
    have hdeleted : ∀ c ∈ (preceding (State.ofFunctions functions) p).take n,
        c.name = Function.lockName → c = .delete Function.lockName :=
      fun c hc ↦ eq_delete_of_mem_preceding hkeyed hlock (List.mem_of_mem_take hc)
    rcases Change.get?_applyAll_of_deleted hdeleted functions with hsame | hgone
    · rwa [owned_eq_of_get?_eq hsame] at hname
    · rw [owned_of_get?_eq_none hgone] at hname
      cases hname
  refine ⟨hold, ?_⟩
  by_cases hdeleted : .delete name ∈ (preceding (State.ofFunctions functions) p).take n
  · exact .inr (mem_take_deleted hdeleted)
  · exact .inl (Change.contains_applyAll_of_not_deleted hdeleted (hpresent name hold))

/-! ## All changes -/

/-- What a plan owns it provides, or it was owned before and stays. -/
theorem Made.provided (h : p.Made w s) (hs : s.lockfile.ownedFunctions.Nodup) {name : String}
    (hname : name ∈ p.lockfile.ownedFunctions) : p.functions.contains name = true ∨
      name ∈ s.lockfile.ownedFunctions ∧ name ∉ p.obsolete := by
  rcases h.inversion with ⟨targets, hremoval⟩ | ⟨made, sources, hselecting⟩
  · exact .inr ((removes_of_removal hremoval).of_mem_ownedFunctions hs hname)
  · left
    obtain ⟨⟨project, selection, renames, -, hmade⟩, -, rfl⟩ := hselecting
    obtain ⟨batch, checked, -, -, rfl⟩ :=
      (Batch.planOf_spec s project selection renames).of_yields hmade
    exact OrderedMap.contains_insertAll.mpr (.inl (Batch.contains_functions_of_owned hname))

/-- What is read of a lockfile whose functions are listable claims no others. -/
theorem mem_ownedFunctions_of_mem_owned {l : Lockfile}
    (hthere : after.get? Function.lockName = some (Workbook.encodeLockfile l))
    (hlistable : ∀ entry ∈ l.packages.values, Workbook.Listable entry.functions) {name : String}
    (hname : name ∈ owned after) : name ∈ l.ownedFunctions := by
  have hsame : Lockfile.mk (l.packages.map fun _ entry ↦ Workbook.relisted entry) =
      Workbook.rereadAll l :=
    congrArg Lockfile.mk (OrderedMap.map_congr fun entry hentry ↦
      Workbook.relisted_eq_reread (hlistable entry hentry))
  rw [owned, State.ofFunctions, Workbook.lockfile?, hthere, Option.bind_some,
    Workbook.decodeLockfile?_eq_exclusive, hsame, Option.getD_some,
    ← Lockfile.map_fst_claims] at hname
  obtain ⟨claim, hclaim, rfl⟩ := List.mem_map.mp hname
  rw [← Lockfile.map_fst_claims, ← Workbook.claims_rereadAll]
  exact List.mem_map_of_mem (Lockfile.mem_claims_of_exclusive hclaim)

/-- What is owned when a plan has been carried out is there. -/
theorem CarriedOut.contains_of_owned_after (h : p.CarriedOut functions after)
    (hmade : p.Made w (State.ofFunctions functions))
    (hpresent : ∀ name ∈ owned functions, functions.contains name = true)
    (hlistable : ∀ entry ∈ p.lockfile.packages.values, Workbook.Listable entry.functions)
    {name : String} (hname : name ∈ owned after) : after.contains name = true := by
  cases hreserved : Function.isReserved name with
  | true => exact h.contains_of_isReserved (s := State.ofFunctions functions) hreserved
  | false =>
    have hclaimed := mem_ownedFunctions_of_mem_owned h.lockfile hlistable hname
    cases hnew : p.functions.contains name with
    | true => exact h.provided name hreserved hnew
    | false =>
      rcases hmade.provided (nodup_owned functions) hclaimed with hthere | ⟨hold, hobsolete⟩
      · rw [hnew] at hthere
        cases hthere
      · rw [OrderedMap.contains, h.kept name hreserved hnew hobsolete]
        exact hpresent name hold

/-- Wherever the changes of a plan are interrupted, every function that is owned is there, except
for those that the plan deletes and that have been deleted already. When nothing is left to be done,
there are no exceptions, provided that the names of the functions can be read from their list. -/
theorem Made.contains_unless_deleted (h : p.Made w (State.ofFunctions functions))
    (hsupply : w.supply.Keyed w.start)
    (hlock : p.functions.contains Function.lockName = false)
    (hpresent : ∀ name ∈ owned functions, functions.contains name = true) :
    (∀ n < (p.changes (State.ofFunctions functions)).length,
      ∀ name ∈ owned (p.interrupted functions n),
        (p.interrupted functions n).contains name = true ∨ name ∈ p.deleted.take n) ∧
    ((∀ entry ∈ p.lockfile.packages.values, Workbook.Listable entry.functions) →
      ∀ n, (p.changes (State.ofFunctions functions)).length ≤ n →
        ∀ name ∈ owned (p.interrupted functions n),
          (p.interrupted functions n).contains name = true) := by
  have hkeyed := h.keyed hsupply
  refine ⟨fun n hn name hname ↦ ?_, fun hlistable n hn name hname ↦ ?_⟩
  · exact (contains_interrupted hkeyed hlock hpresent hn hname).2
  · have hcarried := carriedOut_changes (State.ofFunctions functions) hkeyed
    rw [interrupted, List.take_of_length_le hn] at hname ⊢
    exact hcarried.contains_of_owned_after h hpresent hlistable hname

end Plan

/-! ## Another alias -/

/-- A workbook in which two functions are owned, one of them under an alias. -/
def colored : FunctionMap :=
  .ofList [("BLEND", { name := "BLEND", definition := "=TINT(1)" }),
    ("TINT", { name := "TINT", definition := "=LAMBDA(x, x)" }),
    (Function.lockName, Workbook.encodeLockfile
      ⟨.ofList [("colors", { version := Locked.localVersion, functions := ["BLEND", "TINT"] })]⟩)]

/-- The package is installed again, with another alias. -/
def realiasing : Operation :=
  .install [.archive "/colors.gspkg"] (Alias.addSpec .empty ⟨"colors", "MIX", "SHADE"⟩)

theorem present_colored : ∀ name ∈ owned colored, colored.contains name = true := by
  decide +kernel

theorem exists_realiasing : ∃ p, realiasing.plan? offline (State.ofFunctions colored) = some p ∧
    p.functions.keys = ["SHADE", "TINT"] ∧ p.deleted = ["BLEND"] := by
  have hplan : (realiasing.plan? offline (State.ofFunctions colored)).map
      (fun p ↦ (p.functions.keys, p.deleted)) = some (["SHADE", "TINT"], ["BLEND"]) := by
    decide +kernel
  obtain ⟨p, hp, heq⟩ := Option.map_eq_some_iff.mp hplan
  exact ⟨p, hp, congrArg Prod.fst heq, congrArg Prod.snd heq⟩

/-- Once the old alias has been deleted, the other function is still there. -/
theorem Plan.Made.contains_unless_deleted_realiasing : ∃ p : Plan,
    p.Made offline (State.ofFunctions colored) ∧
      ∀ name ∈ owned (p.interrupted colored 1),
        (p.interrupted colored 1).contains name = true ∨ name ∈ ["BLEND"] := by
  obtain ⟨p, hplan, hkeys, hdeleted⟩ := exists_realiasing
  have hmade : p.Made offline (State.ofFunctions colored) := .operation hplan
  have hlock : p.functions.contains Function.lockName = false := by
    rw [← Bool.not_eq_true, ← OrderedMap.mem_keys_iff_contains, hkeys]
    decide
  have hlength : 1 < (p.changes (State.ofFunctions colored)).length := by
    simp [Plan.changes, hdeleted]
  obtain ⟨hbefore, _⟩ := hmade.contains_unless_deleted orderly_offline.keyed hlock present_colored
  specialize hbefore 1 hlength
  rw [hdeleted] at hbefore
  exact ⟨p, hmade, hbefore⟩

/-! ## Gaps -/

/-- A function is owned after the first changes, but is not there. -/
def Plan.LeavesGap (p : Plan) (functions : FunctionMap) (n : Nat) (name : String) : Prop :=
  name ∈ owned (p.interrupted functions n) ∧ (p.interrupted functions n).contains name = false

instance (p : Plan) (functions : FunctionMap) (n : Nat) (name : String) :
    Decidable (p.LeavesGap functions n name) :=
  inferInstanceAs (Decidable (_ ∧ _))

/-- An archive with the text of a lockfile as the body of a function. -/
def ghostsArchive : Archive where
  project := { name := "ghosts", version := "1.0.0" }
  functions := .ofList [("F", {
    name := "F"
    definition := (Workbook.encodeLockfile ⟨.ofList [("x", {
      version := "1", functions := ["GHOST"] })]⟩).definition })]
  integrity := "sha256:0"

theorem Plan.exists_gap {w : Occasion Unit} {functions : FunctionMap} {o : Operation} {n : Nat}
    {name : String} (h : ((o.plan? w (State.ofFunctions functions)).any
      fun p ↦ decide (p.LeavesGap functions n name)) = true) :
    ∃ p : Plan, p.Made w (State.ofFunctions functions) ∧ p.LeavesGap functions n name := by
  cases hplan : o.plan? w (State.ofFunctions functions) with
  | none =>
    rw [hplan] at h
    cases h
  | some p =>
    rw [hplan, Option.any_some, decide_eq_true_eq] at h
    exact ⟨p, .operation hplan, h⟩

/-- Plans leave gaps where nothing that is owned was missing: one that has deleted a function which
the old lockfile still claims, one that has put a lockfile of its own in the place of the old one,
and one whose new lockfile is read with other names. -/
theorem Plan.leavesGap_of_made :
    (∀ name ∈ owned colored, colored.contains name = true) ∧
      (∃ p : Plan, p.Made offline (State.ofFunctions colored) ∧ p.LeavesGap colored 1 "BLEND") ∧
      (∃ p : Plan, p.Made (Operation.offlineWith ghostsArchive) (State.ofFunctions .empty) ∧
        p.LeavesGap .empty 1 "GHOST") ∧
      (∃ p : Plan, p.Made (Operation.offlineWith Operation.areasArchive)
        (State.ofFunctions .empty) ∧ p.LeavesGap .empty 4 "AREA,ÄREA") := by
  refine ⟨present_colored, exists_gap (o := realiasing) ?_,
    exists_gap (o := .install [.archive "/ghosts.gspkg"]
      (Alias.addSpec .empty ⟨"ghosts", "F", Function.lockName⟩)) ?_,
    exists_gap (o := .install [.archive "/lib.gspkg"] .empty) ?_⟩
  · decide +kernel
  · decide +kernel
  · decide +kernel

end SheetPackages
