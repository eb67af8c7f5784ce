import SheetPackages.Plan.Supply

/-!
# Draws on a supply

Planning draws on a supply as often as it likes, and each draw may change the surroundings. A state
is reached if some sequence of draws leads to it. What is known of all draws in reached states
gives, step by step, what is known of the result of a computation that uses its surroundings by
draws only; which draws are made in which order does not matter.
-/

namespace SheetPackages

variable {σ α β : Type}

/-- When the whole of a computation ends with a value, so does what it begins with. -/
theorem exists_of_run_bind {t : ExceptT Fault (StateM σ) α} {f : α → ExceptT Fault (StateM σ) β}
    {s : σ} {b : β} (h : ((t >>= f).run.run s).1 = .ok b) :
    ∃ a s', (t.run.run s).1 = .ok a ∧ ((f a).run.run s').1 = .ok b := by
  simp only [ExceptT.run_bind, StateT.run_bind] at h
  cases ht : t.run.run s with
  | mk result after =>
    rw [ht] at h
    cases result with
    | error fault => cases h
    | ok a => exact ⟨a, after, rfl, h⟩

/-- What comes behind a computation that ends with a value. -/
theorem run_bind_of_ok {t : ExceptT Fault (StateM σ) α} {s after : σ} {a : α}
    (h : t.run.run s = (.ok a, after)) (f : α → ExceptT Fault (StateM σ) β) :
    (t >>= f).run.run s = (f a).run.run after := by
  simp only [ExceptT.run_bind, StateT.run_bind, h]
  rfl

/-- Nothing comes behind a computation that ends with a fault. -/
theorem run_bind_of_error {t : ExceptT Fault (StateM σ) α} {s after : σ} {fault : Fault}
    (h : t.run.run s = (.error fault, after)) (f : α → ExceptT Fault (StateM σ) β) :
    (t >>= f).run.run s = (.error fault, after) := by
  simp only [ExceptT.run_bind, StateT.run_bind, h]
  rfl

theorem run_map (f : α → β) (t : ExceptT Fault (StateM σ) α) (s : σ) :
    ((f <$> t).run.run s).1 = (t.run.run s).1.map f := by
  rw [map_eq_pure_bind]
  cases h : t.run.run s with
  | mk result after =>
    cases result with
    | error fault => rw [run_bind_of_error h]; rfl
    | ok a => rw [run_bind_of_ok h]; rfl

/-- A computation whose faults are caught ends with its result. -/
theorem run_caught {t : ExceptT Fault (StateM σ) α} {s after : σ} {result : Except Fault α}
    (h : t.run.run s = (result, after)) :
    (ExceptT.lift t.run : ExceptT Fault (StateM σ) (Except Fault α)).run.run s =
      (.ok result, after) := by
  change (Except.ok (t.run.run s).1, (t.run.run s).2) = (Except.ok result, after)
  rw [h]

namespace Supply

/-- The states to which draws lead. -/
inductive Reached (supply : Supply (StateM σ)) (start : σ) : σ → Prop
  | start : Reached supply start start
  | index {s : σ} : Reached supply start s → Reached supply start (supply.index.run.run s).2
  | archive {s : σ} (name version : String) :
    Reached supply start s → Reached supply start ((supply.archive name version).run.run s).2
  | locate {s : σ} (path : String) :
    Reached supply start s → Reached supply start ((supply.locate path).run.run s).2
  | file {s : σ} (path : String) :
    Reached supply start s → Reached supply start ((supply.file path).run.run s).2

/-- From the state `s`, the computation leads to one that is reached from there, in which what it
ends with satisfies `Q`. -/
def Leads (supply : Supply (StateM σ)) (s : σ) (t : ExceptT Fault (StateM σ) α) (Q : σ → α → Prop) :
    Prop :=
  supply.Reached s (t.run.run s).2 ∧ ∀ a, (t.run.run s).1 = .ok a → Q (t.run.run s).2 a

/-- What holds in a state holds in all that are reached from there. -/
def Lasts (supply : Supply (StateM σ)) (P : σ → Prop) : Prop :=
  ∀ s after, supply.Reached s after → P s → P after

/-- In some reached state, the computation ends with `a`. -/
def Yields (supply : Supply (StateM σ)) (start : σ) (t : ExceptT Fault (StateM σ) α) (a : α) :
    Prop :=
  ∃ s, supply.Reached start s ∧ (t.run.run s).1 = .ok a

/-- From a reached state, the computation leads to a reached one, and what it ends with satisfies
`Q`. -/
def Ensures (supply : Supply (StateM σ)) (start : σ) (t : ExceptT Fault (StateM σ) α)
    (Q : α → Prop) : Prop :=
  ∀ s, supply.Reached start s → supply.Leads s t fun _ ↦ Q

variable {supply : Supply (StateM σ)} {start : σ}

theorem Reached.trans {s s' : σ} (h : supply.Reached start s) (h' : supply.Reached s s') :
    supply.Reached start s' := by
  induction h' with
  | start => exact h
  | index _ ih => exact ih.index
  | archive name version _ ih => exact ih.archive name version
  | locate path _ ih => exact ih.locate path
  | file path _ ih => exact ih.file path

/-! ## Computations from one state -/

namespace Leads

variable {s : σ} {t : ExceptT Fault (StateM σ) α} {P Q : σ → α → Prop}

theorem pure {a : α} (h : Q s a) : supply.Leads s (pure a) Q :=
  ⟨.start, fun _ heq ↦ Except.ok.inj heq ▸ h⟩

theorem except {result : Except Fault α} (h : ∀ a, result = .ok a → Q s a) :
    supply.Leads s (liftM result) Q :=
  ⟨.start, h⟩

theorem throw {fault : Fault} :
    supply.Leads s (throw fault : ExceptT Fault (StateM σ) α) Q :=
  ⟨.start, fun _ h ↦ nomatch h⟩

theorem bind (ht : supply.Leads s t P) {f : α → ExceptT Fault (StateM σ) β} {R : σ → β → Prop}
    (hf : ∀ after a, supply.Reached s after → P after a → supply.Leads after (f a) R) :
    supply.Leads s (t >>= f) R := by
  obtain ⟨hreached, hresult⟩ := ht
  rw [Leads, ExceptT.run_bind, StateT.run_bind]
  cases heq : t.run.run s with
  | mk result after =>
    rw [heq] at hreached hresult
    cases result with
    | error fault => exact ⟨hreached, fun _ h ↦ nomatch h⟩
    | ok a =>
      obtain ⟨hlast, hend⟩ := hf after a hreached (hresult a rfl)
      exact ⟨hreached.trans hlast, hend⟩

/-- What draws nothing leaves everything as it is. -/
theorem except_bind {result : Except Fault α} {f : α → ExceptT Fault (StateM σ) β}
    {R : σ → β → Prop} (h : ∀ a, result = .ok a → supply.Leads s (f a) R) :
    supply.Leads s (liftM result >>= f) R := by
  cases result with
  | error fault => exact .throw
  | ok a => exact h a rfl

theorem imp (h : supply.Leads s t P)
    (himp : ∀ after a, supply.Reached s after → P after a → Q after a) : supply.Leads s t Q :=
  ⟨h.1, fun a ha ↦ himp _ a h.1 (h.2 a ha)⟩

/-- The result of a computation whose faults are caught. -/
theorem caught (h : supply.Leads s t Q) :
    supply.Leads s (ExceptT.lift t.run) fun after result ↦ ∀ a, result = .ok a → Q after a := by
  obtain ⟨hreached, hresult⟩ := h
  refine ⟨hreached, fun result heq a hok ↦ hresult a ?_⟩
  rw [← hok]
  exact Except.ok.inj heq

/-- What a computation has led to, and that it has. -/
theorem exact (h : supply.Leads s t Q) :
    supply.Leads s t fun after a ↦ t.run.run s = (.ok a, after) ∧ Q after a :=
  ⟨h.1, fun a ha ↦ ⟨Prod.ext ha rfl, h.2 a ha⟩⟩

end Leads

/-! ## Single draws -/

theorem ensures_index : supply.Ensures start supply.index fun _ ↦ True :=
  fun _ _ ↦ ⟨Reached.start.index, fun _ _ ↦ trivial⟩

theorem ensures_archive (name version : String) :
    supply.Ensures start (supply.archive name version)
      (supply.Yields start (supply.archive name version)) :=
  fun s hs ↦ ⟨Reached.start.archive name version, fun _ h ↦ ⟨s, hs, h⟩⟩

theorem ensures_locate (path : String) :
    supply.Ensures start (supply.locate path) fun _ ↦ True :=
  fun _ _ ↦ ⟨Reached.start.locate path, fun _ _ ↦ trivial⟩

theorem ensures_file (path : String) :
    supply.Ensures start (supply.file path) (supply.Yields start (supply.file path)) :=
  fun s hs ↦ ⟨Reached.start.file path, fun _ h ↦ ⟨s, hs, h⟩⟩

/-! ## Computations from all reached states -/

namespace Ensures

variable {t : ExceptT Fault (StateM σ) α} {P Q : α → Prop}

theorem pure {a : α} (h : Q a) : supply.Ensures start (pure a) Q :=
  fun _ _ ↦ .pure h

theorem except {result : Except Fault α} (h : ∀ a, result = .ok a → Q a) :
    supply.Ensures start (liftM result) Q :=
  fun _ _ ↦ .except h

theorem throw {fault : Fault} :
    supply.Ensures start (throw fault : ExceptT Fault (StateM σ) α) Q :=
  fun _ _ ↦ .throw

theorem bind (ht : supply.Ensures start t P) {f : α → ExceptT Fault (StateM σ) β} {R : β → Prop}
    (hf : ∀ a, P a → supply.Ensures start (f a) R) : supply.Ensures start (t >>= f) R :=
  fun s hs ↦ (ht s hs).bind fun _ a hreached ha ↦ hf a ha _ (hs.trans hreached)

theorem imp (h : supply.Ensures start t P) (himp : ∀ a, P a → Q a) : supply.Ensures start t Q :=
  fun s hs ↦ (h s hs).imp fun _ a _ ↦ himp a

theorem run (h : supply.Ensures start t Q) {a : α} (ha : (t.run.run start).1 = .ok a) : Q a :=
  (h start .start).2 a ha

theorem of_yields (h : supply.Ensures start t Q) {a : α} (ha : supply.Yields start t a) : Q a := by
  obtain ⟨s, hs, hresult⟩ := ha
  exact (h s hs).2 a hresult

theorem yields (h : supply.Ensures start t Q) : supply.Ensures start t (supply.Yields start t) :=
  fun s hs ↦ ⟨(h s hs).1, fun _ ha ↦ ⟨s, hs, ha⟩⟩

end Ensures

end Supply

end SheetPackages
