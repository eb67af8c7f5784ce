import SheetPackages.Fault

/-!
# Sequences of calls

Calls are answered one after the other, each in the state that those before it have left. Two ways
to answer them give the same answers as long as no call is stopped by the file system, if they do so
for one call and keep their states related. What a call that is stopped leaves behind is not
described.
-/

namespace SheetPackages

/-- Whether the fault is one of the file system. -/
def Fault.isSystem : Fault → Bool
  | .io _ _ => true
  | _ => false

namespace Sequence

variable {κ σ τ α : Type}

/-- The state after some calls. -/
def after (respond : κ → σ → α × σ) (s : σ) (calls : List κ) : σ :=
  calls.foldl (fun s call ↦ (respond call s).2) s

/-- What some calls are answered with. -/
def answers (respond : κ → σ → α × σ) (s : σ) : List κ → List α
  | [] => []
  | call :: rest => (respond call s).1 :: answers respond (respond call s).2 rest

theorem answers_append (respond : κ → σ → α × σ) (s : σ) (calls more : List κ) :
    answers respond s (calls ++ more) =
      answers respond s calls ++ answers respond (after respond s calls) more := by
  induction calls generalizing s with
  | nil => rfl
  | cons call rest ih => exact congrArg (_ :: ·) (ih _)

/-! ## Answers from the calls before -/

/-- Answers that are told by the calls before, which are the state. -/
def recalling (expected : List κ → κ → α) (call : κ) (before : List κ) : α × List κ :=
  (expected before call, before ++ [call])

theorem after_recalling (expected : List κ → κ → α) (before calls : List κ) :
    after (recalling expected) before calls = before ++ calls := by
  induction calls generalizing before with
  | nil => exact (List.append_nil before).symm
  | cons call rest ih => exact (ih _).trans (List.append_cons before call rest).symm

theorem getElem?_answers_recalling (expected : List κ → κ → α) (before calls : List κ) (n : Nat) :
    (answers (recalling expected) before calls)[n]? =
      calls[n]?.map (expected (before ++ calls.take n)) := by
  induction calls generalizing before n with
  | nil => rfl
  | cons call rest ih =>
    cases n with
    | zero => exact congrArg (fun known ↦ some (expected known call)) (List.append_nil _).symm
    | succ n =>
      have hbefore : before ++ [call] ++ rest.take n = before ++ (call :: rest).take (n + 1) :=
        (List.append_cons before call _).symm
      exact (ih (before ++ [call]) n).trans (by rw [hbefore, List.getElem?_cons_succ])

/-! ## Simulation -/

/-- Whether a result is a fault of the file system. -/
def isStopped : Except Fault α → Bool
  | .error fault => fault.isSystem
  | .ok _ => false

theorem isStopped_map {β : Type} (f : α → β) (result : Except Fault α) :
    isStopped (result.map f) = isStopped result := by
  cases result <;> rfl

variable {respond : κ → σ → Except Fault α × σ} {reference : κ → τ → Except Fault α × τ}
  {related : σ → τ → Prop} {s : σ} {t : τ} {calls : List κ}

/-- None of the calls is stopped by the file system. -/
def Succeeds (respond : κ → σ → Except Fault α × σ) (s : σ) (calls : List κ) : Prop :=
  ∀ result ∈ answers respond s calls, isStopped result = false

instance : Decidable (Succeeds respond s calls) :=
  inferInstanceAs (Decidable (∀ result ∈ answers respond s calls, isStopped result = false))

theorem Succeeds.of_append {more : List κ} (h : Succeeds respond s (calls ++ more)) :
    Succeeds respond s calls := by
  rw [Succeeds, answers_append] at h
  exact fun result hresult ↦ h result (List.mem_append_left _ hresult)

/-- A call that is not stopped is answered as by the reference, and the states stay related. -/
def Simulates (respond : κ → σ → Except Fault α × σ) (reference : κ → τ → Except Fault α × τ)
    (related : σ → τ → Prop) : Prop :=
  ∀ call s t, related s t → isStopped (respond call s).1 = false →
    (respond call s).1 = (reference call t).1 ∧ related (respond call s).2 (reference call t).2

theorem Simulates.run (h : Simulates respond reference related) (hstart : related s t)
    (hcalls : Succeeds respond s calls) :
    answers respond s calls = answers reference t calls ∧
      related (after respond s calls) (after reference t calls) := by
  induction calls generalizing s t with
  | nil => exact ⟨rfl, hstart⟩
  | cons call rest ih =>
    obtain ⟨hcall, hrest⟩ := List.forall_mem_cons.mp hcalls
    obtain ⟨hanswer, hnext⟩ := h call s t hstart hcall
    obtain ⟨hanswers, hafter⟩ := ih hnext hrest
    refine ⟨?_, hafter⟩
    rw [answers, answers, hanswer, hanswers]

end Sequence

end SheetPackages
