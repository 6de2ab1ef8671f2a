import Mathlib.Data.Nat.Notation
import Mathlib.Logic.Function.Basic
import Mathlib.Logic.Relation
import Hcproxy.Lib.Runs

set_option autoImplicit false

namespace Programs

/-- What programs are made of: operations on a shared state with their answers, mutexes, loops
that run the functions that were scheduled on them, and callbacks. -/
structure Signature where
  Op : Type
  Res : Op → Type
  Mutex : Type
  Loop : Type
  Fun : Type
  Callback : Type

/-- The code that a thread has still to run. -/
inductive Prog (S : Signature) : Type
  | ret
  | op (o : S.Op) (next : S.Res o → Prog S)
  | lock (m : S.Mutex) (next : Prog S)
  | unlock (m : S.Mutex) (next : Prog S)
  | schedule (l : S.Loop) (f : S.Fun) (next : Prog S)    -- writes `f` to the pipe of `l`
  | call (c : S.Callback) (next : Prog S)                -- enters the callback `c`

variable {S : Signature} {T σ E : Type}

/-- What the threads share: beside the state the holders of the mutexes and the pipes. -/
structure World (S : Signature) (T σ : Type) where
  shared : σ
  holder : S.Mutex → Option T
  pipes : S.Loop → List S.Fun

structure State (S : Signature) (T σ : Type) extends World S T σ where
  threads : T → Prog S

/-- `exec` is `none` where the environment cannot answer so. A thread whose program is over may be
woken to run another one, and the owner of a loop may take a function from its pipe. -/
structure System (S : Signature) (T σ E : Type) where
  exec : (o : S.Op) → E → σ → Option (S.Res o × σ)
  owner : S.Loop → T
  capacity : S.Loop → ℕ
  ready : S.Loop → σ → Bool
  body : S.Fun → Prog S
  wake : T → E → σ → Option (Prog S)

inductive Action (S : Signature) (T E : Type)
  | run (t : T) (answer : E)
  | pop (l : S.Loop)
  | wake (t : T) (answer : E)

section Step

variable [DecidableEq T] [DecidableEq S.Mutex] [DecidableEq S.Loop] (sys : System S T σ E)

def step (s : State S T σ) : Action S T E → Option (State S T σ)
  | .run t e =>
    match s.threads t with
    | .ret => none
    | .op o next => (sys.exec o e s.shared).map fun r =>
        { s with shared := r.2, threads := Function.update s.threads t (next r.1) }
    | .lock m next =>
      match s.holder m with
      | some _ => none
      | none => some { s with
          holder := Function.update s.holder m (some t)
          threads := Function.update s.threads t next }
    | .unlock m next =>
      if s.holder m = some t then some { s with
        holder := Function.update s.holder m none
        threads := Function.update s.threads t next }
      else none
    | .schedule l f next =>
      if (s.pipes l).length < sys.capacity l then some { s with
        pipes := Function.update s.pipes l (s.pipes l ++ [f])
        threads := Function.update s.threads t next }
      else none
    | .call _ next => some { s with threads := Function.update s.threads t next }
  | .pop l =>
    match s.threads (sys.owner l), s.pipes l with
    | .ret, f :: rest =>
      if sys.ready l s.shared then some { s with
        pipes := Function.update s.pipes l rest
        threads := Function.update s.threads (sys.owner l) (sys.body f) }
      else none
    | _, _ => none
  | .wake t e =>
    match s.threads t with
    | .ret => (sys.wake t e s.shared).map fun p =>
        { s with threads := Function.update s.threads t p }
    | _ => none

end Step

/-- A discipline for the programs of a system. In each thread a context `Γ` follows the program:
`pre`, `locks`, `unlocks`, `schedules` and `calls` say where the program may go on and with which
context, and `inv` is what the contexts say about the world. -/
structure Discipline (S : Signature) (T σ Γ : Type) where
  inv : World S T σ → (T → Γ) → Prop
  rests : T → Γ → Prop
  pre : T → Γ → S.Op → Prop
  post : T → Γ → (o : S.Op) → S.Res o → Γ → Prop
  locks : T → Γ → S.Mutex → Γ → Prop
  unlocks : T → Γ → S.Mutex → Γ → Prop
  schedules : T → Γ → S.Loop → S.Fun → Γ → Prop
  calls : T → Γ → S.Callback → Prop

variable {Γ : Type}

/-- The program goes by the discipline, whatever its operations answer. -/
def Discipline.Follows (D : Discipline S T σ Γ) (t : T) : Γ → Prog S → Prop
  | γ, .ret => D.rests t γ
  | γ, .op o next => D.pre t γ o ∧ ∀ r γ', D.post t γ o r γ' → D.Follows t γ' (next r)
  | γ, .lock m next => ∃ γ', D.locks t γ m γ' ∧ D.Follows t γ' next
  | γ, .unlock m next => ∃ γ', D.unlocks t γ m γ' ∧ D.Follows t γ' next
  | γ, .schedule l f next => ∃ γ', D.schedules t γ l f γ' ∧ D.Follows t γ' next
  | γ, .call c next => D.calls t γ c ∧ D.Follows t γ next

/-- All threads go by the discipline. -/
def Discipline.Holds (D : Discipline S T σ Γ) (s : State S T σ) : Prop :=
  ∃ γ, D.inv s.toWorld γ ∧ ∀ t, D.Follows t (γ t) (s.threads t)

section Deadlock

/-- A thread cannot go on before another one has unlocked a mutex or emptied a pipe. -/
inductive WaitsFor (sys : System S T σ E) (s : State S T σ) (t u : T) : Prop
  | mutex {m : S.Mutex} {next : Prog S} (locks : s.threads t = .lock m next)
      (held : s.holder m = some u)
  | pipe {l : S.Loop} {f : S.Fun} {next : Prog S} (schedules : s.threads t = .schedule l f next)
      (full : sys.capacity l ≤ (s.pipes l).length) (drains : sys.owner l = u)

/-- The code neither waits for anything nor leaves the component here. -/
def Prog.Local : Prog S → Prop
  | .op _ _ | .unlock _ _ => True
  | .ret | .lock _ _ | .schedule _ _ _ | .call _ _ => False

/-- Threads hold at most one mutex, which they have unlocked before they lock another one, schedule
a function or call a callback; and they schedule only on loops of higher rank. -/
def ordered (sys : System S T σ E) (rank : T → ℕ) : Discipline S T σ (Option S.Mutex) where
  inv w γ := ∀ m t, w.holder m = some t ↔ γ t = some m
  rests _ γ := γ = none
  pre _ _ _ := True
  post _ γ _ _ γ' := γ' = γ
  locks _ γ m γ' := γ = none ∧ γ' = some m
  unlocks _ γ m γ' := γ = some m ∧ γ' = none
  schedules t γ l _ γ' := γ = none ∧ γ' = none ∧ rank t < rank (sys.owner l)
  calls _ γ _ := γ = none

variable {sys : System S T σ E} {rank : T → ℕ} {s : State S T σ}

section Rules

variable {t : T} {γ : Option S.Mutex} {next : Prog S}

@[simp] theorem ordered_ret : (ordered sys rank).Follows t γ .ret ↔ γ = none := Iff.rfl

@[simp] theorem ordered_op {o : S.Op} {next : S.Res o → Prog S} :
    (ordered sys rank).Follows t γ (.op o next) ↔ ∀ r, (ordered sys rank).Follows t γ (next r) := by
  constructor
  · intro follows r
    exact follows.2 r γ rfl
  · intro follows
    refine ⟨trivial, ?_⟩
    rintro r γ' rfl
    exact follows r

@[simp] theorem ordered_lock {m : S.Mutex} :
    (ordered sys rank).Follows t none (.lock m next) ↔
      (ordered sys rank).Follows t (some m) next := by
  constructor
  · rintro ⟨γ', ⟨_, rfl⟩, follows⟩
    exact follows
  · exact fun follows => ⟨some m, ⟨rfl, rfl⟩, follows⟩

@[simp] theorem ordered_unlock {m : S.Mutex} :
    (ordered sys rank).Follows t (some m) (.unlock m next) ↔
      (ordered sys rank).Follows t none next := by
  constructor
  · rintro ⟨γ', ⟨_, rfl⟩, follows⟩
    exact follows
  · exact fun follows => ⟨none, ⟨rfl, rfl⟩, follows⟩

@[simp] theorem ordered_schedule {l : S.Loop} {f : S.Fun} :
    (ordered sys rank).Follows t none (.schedule l f next) ↔
      rank t < rank (sys.owner l) ∧ (ordered sys rank).Follows t none next := by
  constructor
  · rintro ⟨γ', ⟨_, rfl, less⟩, follows⟩
    exact ⟨less, follows⟩
  · exact fun ⟨less, follows⟩ => ⟨none, ⟨rfl, rfl, less⟩, follows⟩

@[simp] theorem ordered_call {c : S.Callback} :
    (ordered sys rank).Follows t none (.call c next) ↔
      (ordered sys rank).Follows t none next :=
  ⟨fun follows => follows.2, fun follows => ⟨rfl, follows⟩⟩

end Rules

/-- A thread that holds a mutex runs code of its own. -/
theorem local_of_holds (holds : (ordered sys rank).Holds s) {m : S.Mutex} {t : T}
    (held : s.holder m = some t) : (s.threads t).Local := by
  obtain ⟨γ, inv, follows⟩ := holds
  have here := follows t
  rw [(inv m t).mp held] at here
  cases program : s.threads t with
  | op o next => trivial
  | unlock n next => trivial
  | ret =>
      rw [program] at here
      cases here
  | lock n next =>
      rw [program] at here
      obtain ⟨_, ⟨none, _⟩, _⟩ := here
      cases none
  | schedule l f next =>
      rw [program] at here
      obtain ⟨_, ⟨none, _⟩, _⟩ := here
      cases none
  | call c next =>
      rw [program] at here
      cases here.1

theorem rank_of_schedules (holds : (ordered sys rank).Holds s) {l : S.Loop} {f : S.Fun}
    {next : Prog S} {t : T} (schedules : s.threads t = .schedule l f next) :
    rank t < rank (sys.owner l) := by
  obtain ⟨γ, _, follows⟩ := holds
  have here := follows t
  rw [schedules] at here
  obtain ⟨_, ⟨_, _, less⟩, _⟩ := here
  exact less

/-- A thread that others wait for has the higher rank, or it waits for nobody. -/
theorem waitsFor_spec (holds : (ordered sys rank).Holds s) {t u : T} (waits : WaitsFor sys s t u) :
    rank t < rank u ∨ ∀ v, ¬ WaitsFor sys s u v := by
  cases waits with
  | pipe schedules full drains =>
      subst drains
      exact .inl (rank_of_schedules holds schedules)
  | mutex locks held =>
      have free := local_of_holds holds held
      refine .inr fun v waits => ?_
      cases waits with
      | mutex locks' held' =>
          rw [locks'] at free
          exact free
      | pipe schedules full drains =>
          rw [schedules] at free
          exact free

/-- No threads wait for each other in a cycle. -/
theorem no_cycle (holds : (ordered sys rank).Holds s) (t : T) :
    ¬ Relation.TransGen (WaitsFor sys s) t t := by
  have chain : ∀ {u}, Relation.TransGen (WaitsFor sys s) t u →
      rank t < rank u ∨ ∀ v, ¬ WaitsFor sys s u v := by
    intro u path
    induction path with
    | single first => exact waitsFor_spec holds first
    | tail before last ih =>
        rcases ih with less | free
        · exact (waitsFor_spec holds last).imp (Nat.lt_trans less) id
        · exact absurd last (free _)
  intro cycle
  rcases chain cycle with less | free
  · exact Nat.lt_irrefl _ less
  · obtain ⟨u, first, _⟩ := Relation.TransGen.head'_iff.mp cycle
    exact free u first

/-- The chain of threads that wait ends with one that waits for nobody. -/
theorem waits_for_free (holds : (ordered sys rank).Holds s) {bound : ℕ}
    (bounded : ∀ t, rank t ≤ bound) (t : T) :
    ∃ u, Relation.ReflTransGen (WaitsFor sys s) t u ∧ ∀ v, ¬ WaitsFor sys s u v := by
  induction left : bound - rank t using Nat.strongRecOn generalizing t with
  | _ n ih =>
      by_cases free : ∀ v, ¬ WaitsFor sys s t v
      · exact ⟨t, .refl, free⟩
      · obtain ⟨u, waits⟩ := not_forall_not.mp free
        rcases waitsFor_spec holds waits with less | free
        · have inside := bounded u
          obtain ⟨v, path, free⟩ := ih (bound - rank u) (by omega) u rfl
          exact ⟨v, .head waits path, free⟩
        · exact ⟨u, .single waits, free⟩

end Deadlock

/-- The answers of operations are `fine`. -/
def Fine (fine : (o : S.Op) → E → σ → Prop) (s : State S T σ) : Action S T E → Prop
  | .run t e => ∀ o next, s.threads t = .op o next → fine o e s.shared
  | _ => True

instance Fine.decidable {fine : (o : S.Op) → E → σ → Prop} [∀ o e w, Decidable (fine o e w)]
    (s : State S T σ) : DecidablePred (Fine fine s)
  | .run t e =>
    match program : s.threads t with
    | .op o next => decidable_of_iff (fine o e s.shared)
        ⟨fun holds _ _ same => by cases program.symm.trans same; exact holds,
          fun all => all o next program⟩
    | .ret | .lock _ _ | .unlock _ _ | .schedule _ _ _ | .call _ _ =>
      .isTrue fun _ _ same => by cases program.symm.trans same
  | .pop _ | .wake _ _ => .isTrue trivial

variable [DecidableEq T]

theorem follows_update {D : Discipline S T σ Γ} {threads : T → Prog S} {γ : T → Γ}
    (follows : ∀ t, D.Follows t (γ t) (threads t)) {t : T} {γ' : Γ} {p : Prog S}
    (here : D.Follows t γ' p) :
    ∀ u, D.Follows u (Function.update γ t γ' u) (Function.update threads t p u) := by
  intro u
  by_cases same : u = t
  · subst same
    rwa [Function.update_self, Function.update_self]
  · rw [Function.update_of_ne same, Function.update_of_ne same]
    exact follows u

variable [DecidableEq S.Mutex] [DecidableEq S.Loop]

/-- What a discipline has to keep, as long as the answers are `fine`. -/
structure Discipline.Sound (D : Discipline S T σ Γ) (sys : System S T σ E)
    (fine : (o : S.Op) → E → σ → Prop) : Prop where
  op : ∀ (w : World S T σ) (γ : T → Γ) t o e r shared, D.inv w γ → D.pre t (γ t) o →
    fine o e w.shared → sys.exec o e w.shared = some (r, shared) →
      ∃ γ', D.post t (γ t) o r γ' ∧ D.inv { w with shared } (Function.update γ t γ')
  lock : ∀ (w : World S T σ) (γ : T → Γ) t m γ', D.inv w γ → D.locks t (γ t) m γ' →
    w.holder m = none →
      D.inv { w with holder := Function.update w.holder m (some t) } (Function.update γ t γ')
  unlock : ∀ (w : World S T σ) (γ : T → Γ) t m γ', D.inv w γ → D.unlocks t (γ t) m γ' →
    w.holder m = some t →
      D.inv { w with holder := Function.update w.holder m none } (Function.update γ t γ')
  schedule : ∀ (w : World S T σ) (γ : T → Γ) t l f γ', D.inv w γ → D.schedules t (γ t) l f γ' →
    D.inv { w with pipes := Function.update w.pipes l (w.pipes l ++ [f]) } (Function.update γ t γ')
  pop : ∀ (w : World S T σ) (γ : T → Γ) l f rest, D.inv w γ →
    D.rests (sys.owner l) (γ (sys.owner l)) → w.pipes l = f :: rest →
      ∃ γ', D.Follows (sys.owner l) γ' (sys.body f) ∧
        D.inv { w with pipes := Function.update w.pipes l rest }
          (Function.update γ (sys.owner l) γ')
  wake : ∀ (w : World S T σ) (γ : T → Γ) t e p, D.inv w γ → D.rests t (γ t) →
    sys.wake t e w.shared = some p →
      ∃ γ', D.Follows t γ' p ∧ D.inv w (Function.update γ t γ')

section Sound

variable {D : Discipline S T σ Γ} {sys : System S T σ E} {fine : (o : S.Op) → E → σ → Prop}

/-- Each step of the system keeps the discipline. -/
theorem Discipline.Sound.step {s s' : State S T σ} {action : Action S T E}
    (sound : D.Sound sys fine) (holds : D.Holds s) (answers : Fine fine s action)
    (stepped : step sys s action = some s') : D.Holds s' := by
  obtain ⟨γ, inv, follows⟩ := holds
  cases action with
  | run t e =>
      have here := follows t
      simp only [Programs.step] at stepped
      cases program : s.threads t with
      | ret =>
          rw [program] at stepped
          cases stepped
      | op o next =>
          rw [program] at stepped here
          obtain ⟨⟨r, shared⟩, answered, rfl⟩ := Option.map_eq_some_iff.mp stepped
          obtain ⟨γ', post, inv'⟩ :=
            sound.op s.toWorld γ t o e r shared inv here.1 (answers o next program) answered
          exact ⟨_, inv', follows_update follows (here.2 r γ' post)⟩
      | lock m next =>
          rw [program] at stepped here
          obtain ⟨γ', locks, after⟩ := here
          cases free : s.holder m with
          | some u =>
              simp only [free] at stepped
              cases stepped
          | none =>
              simp only [free, Option.some.injEq] at stepped
              subst stepped
              exact ⟨_, sound.lock s.toWorld γ t m γ' inv locks free, follows_update follows after⟩
      | unlock m next =>
          rw [program] at stepped here
          obtain ⟨γ', unlocks, after⟩ := here
          by_cases held : s.holder m = some t
          · simp only [held, ↓reduceIte, Option.some.injEq] at stepped
            subst stepped
            exact ⟨_, sound.unlock s.toWorld γ t m γ' inv unlocks held,
              follows_update follows after⟩
          · simp only [held, ↓reduceIte] at stepped
            cases stepped
      | schedule l f next =>
          rw [program] at stepped here
          obtain ⟨γ', schedules, after⟩ := here
          simp only at stepped
          split at stepped
          · cases stepped
            exact ⟨_, sound.schedule s.toWorld γ t l f γ' inv schedules,
              follows_update follows after⟩
          · cases stepped
      | call c next =>
          rw [program] at stepped here
          simp only [Option.some.injEq] at stepped
          subst stepped
          refine ⟨γ, inv, ?_⟩
          have same := follows_update follows (p := next) here.2
          rwa [Function.update_eq_self] at same
  | pop l =>
      have here := follows (sys.owner l)
      simp only [Programs.step] at stepped
      split at stepped
      · rename_i f rest program pipe
        rw [program] at here
        split at stepped
        · cases stepped
          obtain ⟨γ', after, inv'⟩ := sound.pop s.toWorld γ l f rest inv here pipe
          exact ⟨_, inv', follows_update follows after⟩
        · cases stepped
      · cases stepped
  | wake t e =>
      have here := follows t
      simp only [Programs.step] at stepped
      split at stepped
      · rename_i program
        rw [program] at here
        obtain ⟨p, woken, rfl⟩ := Option.map_eq_some_iff.mp stepped
        obtain ⟨γ', after, inv'⟩ := sound.wake s.toWorld γ t e p inv here woken
        exact ⟨_, inv', follows_update follows after⟩
      · cases stepped

/-- Each run of the system keeps the discipline. -/
theorem Discipline.Sound.reachable {init : State S T σ → Prop} (sound : D.Sound sys fine)
    (base : ∀ s, init s → D.Holds s) {allowed : State S T σ → Action S T E → Prop}
    (answers : ∀ s a, allowed s a → Fine fine s a) {s : State S T σ}
    (reach : Runs.Reachable init (Runs.Moves (Programs.step sys) allowed) s) : D.Holds s := by
  refine Runs.Reachable.invariant (I := D.Holds) base ?_ reach
  intro s t holds moved
  obtain ⟨a, admitted, stepped⟩ := moved
  exact sound.step holds (answers s a admitted) stepped

variable {rank : T → ℕ}

/-- A thread that waits for nobody is idle, at an operation, or it can go on. -/
theorem moves_of_free {s : State S T σ} (holds : (ordered sys rank).Holds s) {t : T}
    (free : ∀ u, ¬ WaitsFor sys s t u) (e : E) :
    s.threads t = .ret ∨ (∃ o next, s.threads t = .op o next) ∨
      (Programs.step sys s (.run t e)).isSome = true := by
  cases program : s.threads t with
  | ret => exact .inl rfl
  | op o next => exact .inr (.inl ⟨o, next, rfl⟩)
  | lock m next =>
      have unheld : s.holder m = none := by
        cases held : s.holder m with
        | none => rfl
        | some u => exact absurd (.mutex program held) (free u)
      simp [Programs.step, program, unheld]
  | unlock m next =>
      obtain ⟨γ, inv, follows⟩ := holds
      have here := follows t
      rw [program] at here
      obtain ⟨_, ⟨held, _⟩, _⟩ := here
      simp [Programs.step, program, (inv m t).mpr held]
  | schedule l f next =>
      have room : (s.pipes l).length < sys.capacity l := by
        by_contra full
        exact free _ (.pipe program (Nat.not_lt.mp full) rfl)
      simp [Programs.step, program, room]
  | call c next => simp [Programs.step, program]

/-- It is enough to look at the code of the system. -/
theorem ordered_sound
    (body : ∀ l f, (ordered sys rank).Follows (sys.owner l) none (sys.body f))
    (wake : ∀ t e w p, sys.wake t e w = some p → (ordered sys rank).Follows t none p) :
    (ordered sys rank).Sound sys fun _ _ _ => True := by
  have same : ∀ (γ : T → Option S.Mutex) t, γ t = none → Function.update γ t none = γ := by
    intro γ t none
    exact Function.update_eq_self_iff.mpr none.symm
  constructor
  · intro w γ t o e r shared inv _ _ _
    refine ⟨γ t, rfl, ?_⟩
    rw [Function.update_eq_self]
    exact inv
  · intro w γ t m γ' inv locks free n u
    obtain ⟨none, rfl⟩ := locks
    show Function.update w.holder m (some t) n = some u ↔ Function.update γ t (some m) u = some n
    by_cases mutex : n = m
    · subst mutex
      rw [Function.update_self]
      by_cases thread : u = t
      · subst thread
        simp
      · have other : γ u ≠ some n := fun held => by simp [(inv n u).mpr held] at free
        simp [Function.update_of_ne thread, other, Ne.symm thread]
    · rw [Function.update_of_ne mutex, inv n u]
      by_cases thread : u = t
      · subst thread
        simp [none, Ne.symm mutex]
      · rw [Function.update_of_ne thread]
  · intro w γ t m γ' inv unlocks held n u
    obtain ⟨holds, rfl⟩ := unlocks
    show Function.update w.holder m none n = some u ↔ Function.update γ t none u = some n
    by_cases mutex : n = m
    · subst mutex
      rw [Function.update_self]
      by_cases thread : u = t
      · subst thread
        simp
      · have other : γ u ≠ some n := by
          intro also
          have both := (inv n u).mpr also
          rw [held] at both
          exact thread (Option.some.inj both).symm
        simp [Function.update_of_ne thread, other]
    · rw [Function.update_of_ne mutex, inv n u]
      by_cases thread : u = t
      · subst thread
        simp [holds, Ne.symm mutex]
      · rw [Function.update_of_ne thread]
  · intro w γ t l f γ' inv schedules
    obtain ⟨none, rfl, _⟩ := schedules
    rw [same γ t none]
    exact inv
  · intro w γ l f rest inv none _
    refine ⟨_, body l f, ?_⟩
    rw [same γ _ none]
    exact inv
  · intro w γ t e p inv none woken
    refine ⟨_, wake t e w.shared p woken, ?_⟩
    rw [same γ t none]
    exact inv

end Sound

end Programs
