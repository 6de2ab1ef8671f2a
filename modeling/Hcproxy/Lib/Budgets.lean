import Hcproxy.Lib.Runs
import Mathlib.Data.Nat.Notation

set_option autoImplicit false

namespace Runs

variable {σ α : Type}

/-- The steps `mine` keep an invariant and are paid for: each of them lowers the budget. -/
structure Spends (step : σ → α → Option σ) (mine : α → Prop) (I : σ → Prop) (budget : σ → ℕ) :
    Prop where
  kept : ∀ s a t, I s → mine a → step s a = some t → I t
  lowered : ∀ s a t, I s → mine a → step s a = some t → budget t < budget s

/-- None of the steps can be made. -/
def Rests (step : σ → α → Option σ) (mine : α → Prop) (s : σ) : Prop :=
  ∀ a, mine a → step s a = none

section Spends

variable {step : σ → α → Option σ} {mine : α → Prop} {I : σ → Prop} {budget : σ → ℕ}

/-- A run is not longer than its budget. -/
theorem Spends.length_le (spends : Spends step mine I budget) {actions : List α} {s t : σ}
    (inv : I s) (all : ∀ a ∈ actions, mine a) (ran : replay step s actions = some t) :
    actions.length + budget t ≤ budget s := by
  induction actions generalizing s with
  | nil =>
      cases ran
      exact Nat.le_of_eq (Nat.zero_add _)
  | cons a rest ih =>
      obtain ⟨u, stepped, ran⟩ := Option.bind_eq_some_iff.mp ran
      have first := all a List.mem_cons_self
      have less := spends.lowered s a u inv first stepped
      have later := ih (spends.kept s a u inv first stepped)
        (fun b member => all b (List.mem_cons_of_mem a member)) ran
      rw [List.length_cons]
      omega

/-- Whoever makes the steps as long as there are any comes to rest. -/
theorem Spends.exists_rest (spends : Spends step mine I budget) {s : σ} (inv : I s) :
    ∃ actions t, (∀ a ∈ actions, mine a) ∧ replay step s actions = some t ∧ Rests step mine t := by
  induction left : budget s using Nat.strongRecOn generalizing s with
  | ind _ ih =>
      by_cases rests : Rests step mine s
      · exact ⟨[], s, nofun, rfl, rests⟩
      · obtain ⟨a, first, moves⟩ : ∃ a, mine a ∧ step s a ≠ none := by
          simpa [Rests] using rests
        obtain ⟨u, stepped⟩ := Option.ne_none_iff_exists'.mp moves
        have less := spends.lowered s a u inv first stepped
        obtain ⟨rest, t, all, ran, final⟩ :=
          ih (budget u) (by omega) (spends.kept s a u inv first stepped) rfl
        refine ⟨a :: rest, t, ?_, ?_, final⟩
        · intro b member
          rcases List.mem_cons.mp member with rfl | member
          · exact first
          · exact all b member
        · rw [replay, stepped]
          exact ran

end Spends

end Runs
