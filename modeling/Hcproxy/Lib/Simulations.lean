import Hcproxy.Lib.Runs

set_option autoImplicit false

namespace Runs

variable {σ τ : Type} {init : σ → Prop} {next : σ → σ → Prop} {init' : τ → Prop}
  {next' : τ → τ → Prop} {R : σ → τ → Prop}

/-- A forward simulation: related states move together, or only the concrete one moves. -/
structure Simulates (init : σ → Prop) (next : σ → σ → Prop) (init' : τ → Prop)
    (next' : τ → τ → Prop) (R : σ → τ → Prop) : Prop where
  start : ∀ s, init s → ∃ t, init' t ∧ R s t
  move : ∀ s t u, Reachable init next s → Reachable init' next' t → R s t → next s u →
    R u t ∨ ∃ v, next' t v ∧ R u v

/-- What is reached is related to something that is reached. -/
theorem Simulates.reachable (simulates : Simulates init next init' next' R) {s : σ}
    (reach : Reachable init next s) : ∃ t, Reachable init' next' t ∧ R s t := by
  induction reach with
  | start initial =>
      obtain ⟨t, initial', related⟩ := simulates.start _ initial
      exact ⟨t, .start initial', related⟩
  | move before moved ih =>
      obtain ⟨t, reach, related⟩ := ih
      rcases simulates.move _ t _ before reach related moved with related | ⟨v, moved', related⟩
      · exact ⟨t, reach, related⟩
      · exact ⟨v, .move reach moved', related⟩

end Runs
