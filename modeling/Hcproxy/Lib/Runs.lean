import Mathlib.Data.List.Basic

set_option autoImplicit false

namespace Runs

variable {σ α : Type}

/-- The states that a system started in `init` and moving along `next` can be in. -/
inductive Reachable (init : σ → Prop) (next : σ → σ → Prop) : σ → Prop
  | start {s : σ} (initial : init s) : Reachable init next s
  | move {s t : σ} (before : Reachable init next s) (moved : next s t) : Reachable init next t

/-- The moves of a step function, restricted to the actions that `allowed` admits. -/
def Moves (step : σ → α → Option σ) (allowed : σ → α → Prop) (s t : σ) : Prop :=
  ∃ a, allowed s a ∧ step s a = some t

/-- Every action is admitted. -/
def always (_ : σ) (_ : α) : Prop := True

/-- The induction behind every safety result: what holds at the start and is kept by
each move holds in every reachable state. -/
theorem Reachable.invariant {init : σ → Prop} {next : σ → σ → Prop} {I : σ → Prop}
    (base : ∀ s, init s → I s) (kept : ∀ s t, I s → next s t → I t) {s : σ}
    (reach : Reachable init next s) : I s := by
  induction reach with
  | start initial => exact base _ initial
  | move _ moved ih => exact kept _ _ ih moved

/-- A second invariant may lean on one that is already established. -/
theorem Reachable.strengthen {init : σ → Prop} {next : σ → σ → Prop} {I J : σ → Prop}
    (known : ∀ s, Reachable init next s → I s) (base : ∀ s, init s → J s)
    (kept : ∀ s t, I s → J s → next s t → J t) {s : σ}
    (reach : Reachable init next s) : J s := by
  induction reach with
  | start initial => exact base _ initial
  | move before moved ih => exact kept _ _ (known _ before) ih moved

theorem Reachable.mono {init : σ → Prop} {next wider : σ → σ → Prop}
    (sub : ∀ s t, next s t → wider s t) {s : σ} (reach : Reachable init next s) :
    Reachable init wider s := by
  induction reach with
  | start initial => exact .start initial
  | move _ moved ih => exact .move ih (sub _ _ moved)

/-- Runs the listed actions one after the other. -/
def replay (step : σ → α → Option σ) : σ → List α → Option σ
  | s, [] => some s
  | s, a :: rest => (step s a).bind fun t => replay step t rest

/-- A run of actions that are admitted wherever they are taken. -/
theorem replay_reachable_of {init : σ → Prop} {step : σ → α → Option σ} {allowed : σ → α → Prop}
    {s t : σ} (actions : List α) (admitted : ∀ a ∈ actions, ∀ s, allowed s a)
    (reach : Reachable init (Moves step allowed) s) (ran : replay step s actions = some t) :
    Reachable init (Moves step allowed) t := by
  induction actions generalizing s with
  | nil =>
      cases ran
      exact reach
  | cons a rest ih =>
      obtain ⟨u, stepped, ran⟩ := Option.bind_eq_some_iff.mp ran
      refine ih (fun b member => admitted b (List.mem_cons_of_mem _ member)) ?_ ran
      exact .move reach ⟨a, admitted a List.mem_cons_self s, stepped⟩

theorem replay_reachable {init : σ → Prop} {step : σ → α → Option σ} {s t : σ}
    (actions : List α) (reach : Reachable init (Moves step always) s)
    (ran : replay step s actions = some t) : Reachable init (Moves step always) t :=
  replay_reachable_of actions (fun _ _ _ => trivial) reach ran

/-- Runs the listed actions as long as each is admitted where it is taken. -/
def replayIf (step : σ → α → Option σ) (allowed : σ → α → Prop)
    [∀ s a, Decidable (allowed s a)] : σ → List α → Option σ
  | s, [] => some s
  | s, a :: rest => if allowed s a then (step s a).bind fun t => replayIf step allowed t rest else none

theorem replayIf_reachable {init : σ → Prop} {step : σ → α → Option σ}
    {allowed : σ → α → Prop} [∀ s a, Decidable (allowed s a)] {s t : σ} (actions : List α)
    (reach : Reachable init (Moves step allowed) s)
    (ran : replayIf step allowed s actions = some t) : Reachable init (Moves step allowed) t := by
  induction actions generalizing s with
  | nil =>
      cases ran
      exact reach
  | cons a rest ih =>
      rw [replayIf] at ran
      split at ran
      · rename_i admitted
        obtain ⟨u, stepped, ran⟩ := Option.bind_eq_some_iff.mp ran
        exact ih (.move reach ⟨a, admitted, stepped⟩) ran
      · cases ran

end Runs
