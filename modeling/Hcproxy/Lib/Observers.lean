import Hcproxy.Lib.Histories

set_option autoImplicit false

namespace Programs

variable {S : Signature} {T σ E G X : Type}

/-- The system with an observer, who is told more about each answer of the environment, admits it
or not, and keeps a state of its own. -/
def System.observed (sys : System S T σ E) (watch : (o : S.Op) → E → X → G → Option G) :
    System S T (σ × G) (E × X) where
  exec o e s := (watch o e.1 e.2 s.2).bind fun g => (sys.exec o e.1 s.1).map fun r => (r.1, r.2, g)
  owner := sys.owner
  capacity := sys.capacity
  ready l s := sys.ready l s.1
  body := sys.body
  wake t e s := sys.wake t e.1 s.1

/-- The action without what only the observer is told. -/
def Action.plain : Action S T (E × X) → Action S T E
  | .run t e => .run t e.1
  | .pop l => .pop l
  | .wake t e => .wake t e.1

variable {sys : System S T σ E} {watch : (o : S.Op) → E → X → G → Option G}

theorem observed_exec {o : S.Op} {e : E × X} {r : S.Res o} {s t : σ × G}
    (ran : (sys.observed watch).exec o e s = some (r, t)) :
    watch o e.1 e.2 s.2 = some t.2 ∧ sys.exec o e.1 s.1 = some (r, t.1) := by
  obtain ⟨g, watched, ran⟩ := Option.bind_eq_some_iff.mp ran
  obtain ⟨⟨answer, shared⟩, answered, same⟩ := Option.map_eq_some_iff.mp ran
  cases same
  exact ⟨watched, answered⟩

variable [DecidableEq T] [DecidableEq S.Mutex] [DecidableEq S.Loop]

/-- Threads share only what operations change. -/
theorem shared_of_step {s t : State S T σ} {a : Action S T E} (stepped : step sys s a = some t) :
    t.shared = s.shared ∨ ∃ thread e o next r, a = .run thread e ∧ s.threads thread = .op o next ∧
      sys.exec o e s.shared = some (r, t.shared) := by
  cases a with
  | run thread e =>
      simp only [step] at stepped
      split at stepped
      · cases stepped
      · rename_i o next program
        obtain ⟨⟨r, shared⟩, ran, rfl⟩ := Option.map_eq_some_iff.mp stepped
        exact .inr ⟨thread, e, o, next, r, rfl, program, ran⟩
      · split at stepped
        · cases stepped
        · cases stepped
          exact .inl rfl
      · split at stepped
        · cases stepped
          exact .inl rfl
        · cases stepped
      · split at stepped
        · cases stepped
          exact .inl rfl
        · cases stepped
      · cases stepped
        exact .inl rfl
  | pop l =>
      simp only [step] at stepped
      split at stepped
      · split at stepped
        · cases stepped
          exact .inl rfl
        · cases stepped
      · cases stepped
  | wake thread e =>
      simp only [step] at stepped
      split at stepped
      · obtain ⟨p, _, rfl⟩ := Option.map_eq_some_iff.mp stepped
        exact .inl rfl
      · cases stepped

/-- An observer does not let a system do anything new. -/
theorem step_observed {s t : State S T (σ × G)} {a : Action S T (E × X)}
    (stepped : step (sys.observed watch) s a = some t) :
    step sys s.forget a.plain = some t.forget := by
  cases a with
  | run thread e =>
      simp only [step] at stepped
      simp only [step, Action.plain]
      have same : s.forget.threads thread = s.threads thread := rfl
      rw [same]
      cases program : s.threads thread with
      | ret =>
          rw [program] at stepped
          cases stepped
      | op o next =>
          rw [program] at stepped
          obtain ⟨⟨r, shared⟩, ran, rfl⟩ := Option.map_eq_some_iff.mp stepped
          have ran : sys.exec o e.1 s.forget.shared = some (r, shared.1) := (observed_exec ran).2
          simp only [ran, Option.map_some]
          rfl
      | lock m next =>
          rw [program] at stepped
          have holder : s.forget.holder m = s.holder m := rfl
          simp only [holder]
          cases held : s.holder m with
          | some u =>
              simp only [held] at stepped
              cases stepped
          | none =>
              simp only [held] at stepped
              cases stepped
              rfl
      | unlock m next =>
          rw [program] at stepped
          have holder : s.forget.holder m = s.holder m := rfl
          simp only [holder]
          simp only at stepped
          split at stepped
          · rename_i held
            cases stepped
            rw [if_pos held]
            rfl
          · cases stepped
      | schedule l f next =>
          rw [program] at stepped
          have pipe : s.forget.pipes l = s.pipes l := rfl
          simp only [pipe]
          simp only at stepped
          split at stepped
          · rename_i room
            cases stepped
            rw [if_pos (show (s.pipes l).length < sys.capacity l from room)]
            rfl
          · cases stepped
      | call c next =>
          rw [program] at stepped
          cases stepped
          rfl
  | pop l =>
      simp only [step] at stepped
      simp only [step, Action.plain]
      split at stepped
      · rename_i f rest program pipe
        split at stepped
        · rename_i ready
          cases stepped
          have program : s.forget.threads (sys.owner l) = .ret := program
          have pipe' : s.forget.pipes l = f :: rest := pipe
          have ready : sys.ready l s.forget.shared = true := ready
          simp only [program, pipe', ready, ↓reduceIte]
          rfl
        · cases stepped
      · cases stepped
  | wake thread e =>
      simp only [step] at stepped
      simp only [step, Action.plain]
      split at stepped
      · rename_i program
        obtain ⟨p, woken, rfl⟩ := Option.map_eq_some_iff.mp stepped
        have program : s.forget.threads thread = .ret := program
        have woken : sys.wake thread e.1 s.forget.shared = some p := woken
        simp only [program, woken, Option.map_some]
        rfl
      · cases stepped

/-- What an observer sees is a run of the system. -/
theorem reachable_observed {init : State S T (σ × G) → Prop} {first : State S T σ → Prop}
    (start : ∀ s, init s → first s.forget)
    {allowed : State S T (σ × G) → Action S T (E × X) → Prop} {s : State S T (σ × G)}
    (reach : Runs.Reachable init (Runs.Moves (step (sys.observed watch)) allowed) s) :
    Runs.Reachable first (Runs.Moves (step sys) Runs.always) s.forget := by
  induction reach with
  | start initial => exact .start (start _ initial)
  | move _ moved ih =>
      obtain ⟨a, _, stepped⟩ := moved
      exact .move ih ⟨a.plain, trivial, step_observed stepped⟩

/-- An invariant of what the threads share and of what the observer keeps. It may lean on what is
known of the runs of the system. -/
theorem observed_invariant {init : State S T (σ × G) → Prop} {first : State S T σ → Prop}
    (start : ∀ s, init s → first s.forget) (known : σ → Prop)
    (runs : ∀ s, Runs.Reachable first (Runs.Moves (step sys) Runs.always) s → known s.shared)
    {fine : (o : S.Op) → E × X → σ × G → Prop} {I : σ × G → Prop}
    (base : ∀ s, init s → I s.shared)
    (kept : ∀ (s t : σ × G) o e r, known s.1 → known t.1 → I s → fine o e s →
      watch o e.1 e.2 s.2 = some t.2 → sys.exec o e.1 s.1 = some (r, t.1) → I t)
    {s : State S T (σ × G)}
    (reach : Runs.Reachable init (Runs.Moves (step (sys.observed watch)) (Fine fine)) s) :
    I s.shared := by
  induction reach with
  | start initial => exact base _ initial
  | @move s t before moved ih =>
      have after := runs _ (reachable_observed start (.move before moved))
      obtain ⟨a, admitted, stepped⟩ := moved
      rcases shared_of_step stepped with same | ⟨thread, e, o, next, r, rfl, program, ran⟩
      · rwa [same]
      · obtain ⟨watched, ran⟩ := observed_exec ran
        exact kept _ _ o e r (runs _ (reachable_observed start before)) after ih
          (admitted o next program) watched ran

end Programs
