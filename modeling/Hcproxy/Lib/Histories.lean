import Hcproxy.Lib.Assertions

set_option autoImplicit false

namespace Programs

variable {S : Signature} {T σ E : Type}

/-- An operation that was made, with its answer. -/
abbrev Event (S : Signature) : Type := (o : S.Op) × S.Res o

/-- The system with the history of its operations. -/
def System.recorded (sys : System S T σ E) : System S T (σ × List (Event S)) E where
  exec o e s := (sys.exec o e s.1).map fun r => (r.1, r.2, s.2 ++ [⟨o, r.1⟩])
  owner := sys.owner
  capacity := sys.capacity
  ready l s := sys.ready l s.1
  body := sys.body
  wake t e s := sys.wake t e s.1

/-- The state without what is kept beside it. -/
def State.forget {G : Type} (s : State S T (σ × G)) : State S T σ := { s with shared := s.shared.1 }

section Recorded

variable {sys : System S T σ E}

theorem recorded_exec {o : S.Op} {e : E} {r : S.Res o} {s s' : σ × List (Event S)}
    (ran : sys.recorded.exec o e s = some (r, s')) :
    sys.exec o e s.1 = some (r, s'.1) ∧ s'.2 = s.2 ++ [⟨o, r⟩] := by
  obtain ⟨⟨answer, shared⟩, answered, same⟩ := Option.map_eq_some_iff.mp ran
  cases same
  exact ⟨answered, rfl⟩

variable [DecidableEq T] [DecidableEq S.Mutex] [DecidableEq S.Loop]

/-- Keeping a history does not restrict a system. -/
theorem step_recorded {s : State S T (σ × List (Event S))} {a : Action S T E} {t : State S T σ}
    (stepped : step sys s.forget a = some t) :
    ∃ u, step sys.recorded s a = some u ∧ u.forget = t := by
  cases a with
  | run thread e =>
      simp only [step] at stepped ⊢
      have same : s.forget.threads thread = s.threads thread := rfl
      rw [same] at stepped
      cases program : s.threads thread with
      | ret =>
          rw [program] at stepped
          cases stepped
      | op o next =>
          rw [program] at stepped
          obtain ⟨⟨r, shared⟩, ran, rfl⟩ := Option.map_eq_some_iff.mp stepped
          have ran : sys.exec o e s.shared.1 = some (r, shared) := ran
          simp only [System.recorded, ran, Option.map_some]
          exact ⟨_, rfl, rfl⟩
      | lock m next =>
          rw [program] at stepped
          have holder : s.forget.holder m = s.holder m := rfl
          simp only [holder] at stepped
          cases held : s.holder m with
          | some u =>
              simp only [held] at stepped
              cases stepped
          | none =>
              simp only [held] at stepped
              cases stepped
              simp only [held]
              exact ⟨_, rfl, rfl⟩
      | unlock m next =>
          rw [program] at stepped
          have holder : s.forget.holder m = s.holder m := rfl
          simp only [holder] at stepped
          split at stepped
          · rename_i held
            cases stepped
            simp only [held, ↓reduceIte]
            exact ⟨_, rfl, rfl⟩
          · cases stepped
      | schedule l f next =>
          rw [program] at stepped
          have pipe : s.forget.pipes l = s.pipes l := rfl
          simp only [pipe] at stepped
          split at stepped
          · rename_i room
            cases stepped
            have room : (s.pipes l).length < sys.recorded.capacity l := room
            simp only [room, ↓reduceIte]
            exact ⟨_, rfl, rfl⟩
          · cases stepped
      | call c next =>
          rw [program] at stepped
          cases stepped
          exact ⟨_, rfl, rfl⟩
  | pop l =>
      simp only [step] at stepped ⊢
      split at stepped
      · rename_i f rest program pipe
        split at stepped
        · rename_i ready
          cases stepped
          have program : s.threads (sys.recorded.owner l) = .ret := program
          have pipe : s.pipes l = f :: rest := pipe
          have ready : sys.recorded.ready l s.shared = true := ready
          simp only [program, pipe, ready, ↓reduceIte]
          exact ⟨_, rfl, rfl⟩
        · cases stepped
      · cases stepped
  | wake thread e =>
      simp only [step] at stepped ⊢
      split at stepped
      · rename_i program
        obtain ⟨p, woken, rfl⟩ := Option.map_eq_some_iff.mp stepped
        have program : s.threads thread = .ret := program
        have woken : sys.recorded.wake thread e s.shared = some p := woken
        simp only [program, woken, Option.map_some]
        exact ⟨_, rfl, rfl⟩
      · cases stepped

/-- Every run is one of the system with its history. -/
theorem exists_recorded {init : State S T σ → Prop} {s : State S T σ}
    (reach : Runs.Reachable init (Runs.Moves (step sys) Runs.always) s) :
    ∃ t, Runs.Reachable (fun t => t.shared.2 = [] ∧ init t.forget)
      (Runs.Moves (step sys.recorded) Runs.always) t ∧ t.forget = s := by
  induction reach with
  | @start s initial =>
      exact ⟨{ s with shared := (s.shared, []) }, .start ⟨rfl, initial⟩, rfl⟩
  | move before moved ih =>
      obtain ⟨t, reach, rfl⟩ := ih
      obtain ⟨a, -, stepped⟩ := moved
      obtain ⟨u, stepped, same⟩ := step_recorded stepped
      exact ⟨u, .move reach ⟨a, trivial, stepped⟩, same⟩

end Recorded

section Throughout

variable {X : Type}

/-- Each event was admitted by what had come before. -/
def Throughout (P : List X → X → Prop) (events : List X) : Prop :=
  ∀ front e back, events = front ++ e :: back → P front e

variable {P : List X → X → Prop} {events : List X}

theorem throughout_nil : Throughout P [] := by
  intro front e back same
  have length := congrArg List.length same
  simp at length

theorem Throughout.next {e : X} (admitted : Throughout P events) (last : P events e) :
    Throughout P (events ++ [e]) := by
  intro front d back whole
  rcases List.eq_nil_or_concat back with rfl | ⟨rest, c, rfl⟩
  · obtain ⟨rfl, same⟩ := List.append_inj' whole rfl
    cases same
    exact last
  · apply admitted front d rest
    rw [List.concat_eq_append, ← List.cons_append, ← List.append_assoc] at whole
    exact (List.append_inj' whole rfl).1

end Throughout

/-- These operations were made, in this order. -/
def Happened (events : List (Event S)) (s : σ × List (Event S)) : Prop := events.Sublist s.2

section Happened

variable {sys : System S T σ E} {events : List (Event S)}

/-- What has happened has happened. -/
theorem stable_happened {inv : σ × List (Event S) → Prop} :
    Stable sys.recorded inv (Happened events) := by
  rintro s s' ⟨-, -, o, e, r, ran⟩ happened
  unfold Happened
  rw [(recorded_exec ran).2]
  exact happened.trans (List.sublist_append_left _ _)

end Happened

end Programs
