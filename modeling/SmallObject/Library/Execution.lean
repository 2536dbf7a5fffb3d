/-! Runs of a machine that takes one command after another.

A step may fail, and then the run does not go on. Commands can be restricted by a
condition on the state in which they are given.
-/

set_option autoImplicit false

namespace Execution

variable {σ α ε : Type} {start : σ → Prop} {kind kind' : σ → α → Prop} {step : σ → α → Except ε σ} {s s' : σ}

/-- The states that are reached from a start by commands of a kind. -/
inductive Runs (start : σ → Prop) (kind : σ → α → Prop) (step : σ → α → Except ε σ) : σ → Prop where
  | start {s : σ} : start s → Runs start kind step s
  | step {s s' : σ} {a : α} : Runs start kind step s → kind s a → step s a = .ok s' → Runs start kind step s'

namespace Runs

/-- What holds at the start and is kept by every step holds in every state reached. -/
theorem invariant {inv : σ → Prop} (init : ∀ s, start s → inv s)
    (keeps : ∀ s a s', inv s → kind s a → step s a = .ok s' → inv s') (run : Runs start kind step s) : inv s := by
  induction run with
  | start first => exact init _ first
  | step _ ofKind stepped ih => exact keeps _ _ _ ih ofKind stepped

theorem mono (weaker : ∀ s a, kind s a → kind' s a) (run : Runs start kind step s) : Runs start kind' step s := by
  induction run with
  | start first => exact .start first
  | step _ ofKind stepped ih => exact .step ih (weaker _ _ ofKind) stepped

end Runs

/-! ## Runs that can be computed -/

theorem mem_toOption {x : Except ε σ} : s ∈ x.toOption ↔ x = .ok s := by
  cases x <;> simp [Except.toOption]

theorem ok_of_toOption {x : Except ε σ} (computed : x.toOption = some s) : x = .ok s := mem_toOption.mp computed

/-- The state after some commands, if they are all of the kind and none fails. -/
def replay (kind : σ → α → Prop) [∀ s a, Decidable (kind s a)] (step : σ → α → Except ε σ) :
    σ → List α → Option σ
  | s, [] => some s
  | s, a :: rest =>
    if kind s a then
      match step s a with
      | .ok s => replay kind step s rest
      | .error _ => none
    else none

theorem replay_runs [∀ s a, Decidable (kind s a)] (commands : List α) (run : Runs start kind step s)
    (replayed : replay kind step s commands = some s') : Runs start kind step s' := by
  induction commands generalizing s with
  | nil =>
    obtain rfl : s = s' := by simpa [replay] using replayed
    exact run
  | cons a rest ih =>
    simp only [replay] at replayed
    split at replayed
    next ofKind =>
      split at replayed
      next stepped => exact ih (run.step ofKind stepped) replayed
      next => simp at replayed
    next => simp at replayed

end Execution
