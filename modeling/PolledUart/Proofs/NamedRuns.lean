import Mathlib.Logic.Function.Basic

/-!
# Runs of many states

A machine is given by what one command does to a state of it. A run keeps a state under every
name. Commands go to one name each, and any state may be copied over another, so that a copy lives
on beside its original, in whatever order the two are used. If a view of the states carries each
step of one machine to a step of another, it carries whole runs.
-/

set_option autoImplicit false

namespace PolledUart

/-- A command for the state of that name, or the copying of one state over another. -/
inductive Named (κ : Type) where
  | tell (name : Nat) (command : κ)
  | copy (source target : Nat)

namespace Named

variable {σ τ κ ρ π : Type}

def run (step : σ → κ → ρ × σ) (states : Nat → σ) : List (Named κ) → List ρ × (Nat → σ)
  | [] => ([], states)
  | .tell name command :: rest =>
    let (reply, s) := step (states name) command
    let (replies, states) := run step (Function.update states name s) rest
    (reply :: replies, states)
  | .copy source target :: rest =>
    run step (Function.update states target (states source)) rest

variable {step : σ → κ → ρ × σ} {step' : τ → κ → π × τ} {P : σ → Prop} {states : Nat → σ}

theorem update_keeps (h : ∀ i, P (states i)) (name : Nat) {s : σ} (hs : P s) :
    ∀ i, P (Function.update states name s i) :=
  (Function.forall_update_iff states fun _ => P).2 ⟨hs, fun i _ => h i⟩

theorem run_keeps (hkeeps : ∀ s command, P s → P (step s command).2) (h : ∀ i, P (states i))
    (commands : List (Named κ)) : ∀ i, P ((run step states commands).2 i) := by
  induction commands generalizing states with
  | nil => exact h
  | cons first rest ih =>
    cases first with
    | tell name command => exact ih (update_keeps h name (hkeeps _ command (h name)))
    | copy source target => exact ih (update_keeps h target (h source))

/-- If a view carries the steps from states with a kept property, it carries runs from them. -/
theorem run_view_of_keeps (view : σ → τ) (shown : ρ → π)
    (hkeeps : ∀ s command, P s → P (step s command).2)
    (hview : ∀ s command, P s →
      step' (view s) command = (shown (step s command).1, view (step s command).2))
    (h : ∀ i, P (states i)) (commands : List (Named κ)) :
    run step' (view ∘ states) commands =
      ((run step states commands).1.map shown, view ∘ (run step states commands).2) := by
  induction commands generalizing states with
  | nil => rfl
  | cons first rest ih =>
    cases first with
    | tell name command =>
      have hs := hkeeps _ command (h name)
      simp only [run, Function.comp_apply, hview _ command (h name), ← Function.comp_update,
        ih (update_keeps h name hs), List.map_cons]
    | copy source target =>
      simp only [run, Function.comp_apply, ← Function.comp_update,
        ih (update_keeps h target (h source))]

theorem run_view (view : σ → τ) (shown : ρ → π)
    (hview : ∀ s command,
      step' (view s) command = (shown (step s command).1, view (step s command).2))
    (states : Nat → σ) (commands : List (Named κ)) :
    run step' (view ∘ states) commands =
      ((run step states commands).1.map shown, view ∘ (run step states commands).2) :=
  run_view_of_keeps (P := fun _ => True) view shown (fun _ _ _ => trivial)
    (fun s command _ => hview s command) (fun _ => trivial) commands

end Named

end PolledUart
