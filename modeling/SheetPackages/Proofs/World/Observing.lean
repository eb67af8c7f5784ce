import SheetPackages.Registry.Basic
import SheetPackages.Proofs.World.Growing

/-!
# Observations

Actions that look at the files and change nothing. What they end with they end with as well where
more files are, if they need all that they look at to be there; otherwise they may find more.
-/

namespace SheetPackages

variable {σ α β : Type}

/-! ## Computations that change nothing -/

/-- The computation leaves its surroundings as they are. -/
def Still (t : ExceptT Fault (StateM σ) α) : Prop :=
  ∀ s, (t.run.run s).2 = s

namespace Still

theorem pure (a : α) : Still (pure a : ExceptT Fault (StateM σ) α) :=
  fun _ ↦ rfl

theorem except (result : Except Fault α) : Still (liftM result : ExceptT Fault (StateM σ) α) :=
  fun _ ↦ rfl

theorem throw {fault : Fault} : Still (throw fault : ExceptT Fault (StateM σ) α) :=
  fun _ ↦ rfl

theorem bind {t : ExceptT Fault (StateM σ) α} {f : α → ExceptT Fault (StateM σ) β} (ht : Still t)
    (hf : ∀ a, Still (f a)) : Still (t >>= f) := by
  intro s
  have hs := ht s
  simp only [ExceptT.run_bind, StateT.run_bind]
  cases heq : t.run.run s with
  | mk result after =>
    rw [heq] at hs
    cases result with
    | error fault => exact hs
    | ok a => exact (hf a after).trans hs

theorem ofAction {t : Action α} (h : Still t) : Still (Cached.ofAction t) :=
  fun (w, _) ↦ Prod.ext (h w) rfl

end Still

namespace Action

theorem still_files : Still files :=
  fun _ ↦ rfl

theorem still_orFault (message : String) (result : Except Files.Refusal α) :
    Still (orFault message result) := by
  cases result with
  | error refusal => exact .throw
  | ok a => exact .pure a

/-- What the action ends with it ends with where more files are, too. -/
structure Observes (t : Action α) : Prop where
  still : Still t
  again : ∀ w after a, w.files.Within after.files → (t.runIn w).1 = .ok a →
    (t.runIn after).1 = .ok a

theorem runIn_bind (t : Action α) (f : α → Action β) (w : World) :
    (t >>= f).runIn w = match t.runIn w with
      | (.ok a, after) => (f a).runIn after
      | (.error fault, after) => (.error fault, after) := by
  simp only [runIn, ExceptT.run_bind, StateT.run_bind]
  cases StateT.run (ExceptT.run t) w with
  | mk result after => cases result <;> rfl

/-- When the whole of an action ends with a value, so does what it begins with. -/
theorem exists_of_runIn_bind {t : Action α} {f : α → Action β} {w next : World} {b : β}
    (h : (t >>= f).runIn w = (.ok b, next)) :
    ∃ a v, t.runIn w = (.ok a, v) ∧ (f a).runIn v = (.ok b, next) := by
  rw [runIn_bind] at h
  cases hrun : t.runIn w with
  | mk result v =>
    rw [hrun] at h
    cases result with
    | error fault => cases h
    | ok a => exact ⟨a, v, rfl, h⟩

theorem runIn_map (f : α → β) (t : Action α) (w : World) :
    (f <$> t).runIn w = ((t.runIn w).1.map f, (t.runIn w).2) := by
  rw [map_eq_pure_bind, runIn_bind]
  cases t.runIn w with
  | mk result after => cases result <;> rfl

theorem runIn_readIfPresent (message path : String) (w : World) :
    (readIfPresent message path).runIn w = (match w.files.read path with
      | .ok data => .ok (some data)
      | .error .notFound => .ok none
      | .error _ => .error (.ofSystem message), w) := by
  change ((match w.files.read path with
    | .ok data => pure (some data)
    | .error .notFound => pure none
    | .error _ => throw (.ofSystem message) : Action (Option ByteArray)).runIn w) = _
  split <;> rfl

namespace Observes

theorem except (result : Except Fault α) : Observes (liftM result : Action α) :=
  ⟨.except result, fun _ _ _ _ h ↦ h⟩

theorem bind {t : Action α} {f : α → Action β} (ht : t.Observes) (hf : ∀ a, (f a).Observes) :
    (t >>= f).Observes := by
  have hrun (w : World) : t.runIn w = ((t.runIn w).1, w) := Prod.ext rfl (ht.still w)
  refine ⟨ht.still.bind fun a ↦ (hf a).still, fun w after b hwithin hb ↦ ?_⟩
  rw [runIn_bind, hrun w] at hb
  rw [runIn_bind, hrun after]
  cases hresult : (t.runIn w).1 with
  | error fault =>
    rw [hresult] at hb
    cases hb
  | ok a =>
    rw [hresult] at hb
    rw [ht.again w after a hwithin hresult]
    exact (hf a).again w after b hwithin hb

/-- What is asked of the files is answered in the same way when there are more. -/
theorem orFault {ask : Files → Except Files.Refusal α}
    (h : ∀ f g a, f.Within g → ask f = .ok a → ask g = .ok a) (message : String) :
    Observes (files >>= fun f ↦ Action.orFault message (ask f)) := by
  refine ⟨still_files.bind fun f ↦ still_orFault message (ask f), fun w after a hwithin ha ↦ ?_⟩
  change ((Action.orFault message (ask w.files)).runIn w).1 = .ok a at ha
  change ((Action.orFault message (ask after.files)).runIn after).1 = .ok a
  cases hask : ask w.files with
  | error refusal =>
    rw [hask] at ha
    cases ha
  | ok b =>
    rw [hask] at ha
    rw [h w.files after.files b hwithin hask]
    exact ha

theorem read (message path : String) : (Action.read message path).Observes :=
  orFault (fun _ _ _ h ↦ h.read) message

end Observes

end Action

end SheetPackages
