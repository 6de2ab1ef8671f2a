import Hcproxy.ResolverLookups

set_option autoImplicit false

namespace Hcproxy.Resolver

open Hcproxy.ThreadPool (Scheduler Worker CondVar)
open Threads

variable {κ A : Type} {opt : Dns.Options}

/-- The steps that are left of a call of `Schedule`, with those that what it schedules costs the
pool. -/
def callToil : Scheduler ℕ → ℕ
  | .locking _ _ => 7
  | .notifying _ => 2
  | .done => 0

/-- The steps of a thread until it blocks. Its own wake-ups are paid by those who send them. -/
def threadToil (clock : ℕ) : Worker ℕ → ℕ
  | .locking | .woken | .sleeperWoken => 1
  | .sleeping deadline => if deadline ≤ clock then 2 else 0
  | .notifying _ => 4
  | .running _ => 2
  | .waiting | .checkFailed | .exited => 0

/-- The steps that a pool can make at most before its threads block. -/
def toil (pool : ThreadPool.State ℕ) : ℕ :=
  total callToil pool.schedulers + total (threadToil pool.clock) pool.workers + 4 * pool.work.length

/-- The tasks of the resolver alone; what threads have taken is due. -/
def State.tasks (s : State κ A) : List (ℤ × ℕ) :=
  scheduled s.pool ++ s.hands.reduceOption.map fun it => (0, it)

/-- The resolver alone. -/
def State.plain (s : State κ A) : Dns.State κ A := { s.dns with tasks := s.tasks }

/-- The steps that a resolver and its threads can make at most before they rest. -/
def State.budget (opt : Dns.Options) (s : State κ A) : ℕ :=
  8 * s.plain.budget opt + toil s.pool

section Toil

variable {pool pool' : ThreadPool.State ℕ}

theorem wake_toil {wake : CondVar} {clock : ℕ} {w y : Worker ℕ} (woke : w.wake wake = some y) :
    threadToil clock y ≤ threadToil clock w + 1 := by
  rcases ThreadPool.wake_cases woke with ⟨-, rfl, rfl⟩ | ⟨-, ⟨d, rfl⟩, rfl⟩
  · exact Nat.le_refl 1
  · exact Nat.le_add_left 1 _

theorem notifyOne_toil {wake : CondVar} {target : Option ℕ} {clock : ℕ}
    {workers after : List (Worker ℕ)}
    (notified : ThreadPool.notifyOne wake target workers = some after) :
    total (threadToil clock) after ≤ total (threadToil clock) workers + 1 := by
  rcases ThreadPool.notifyOne_cases notified with ⟨j, w, y, found, woke, rfl⟩ | ⟨rfl, -⟩
  · have moved := total_set (threadToil clock) y found
    have one := @wake_toil wake clock w y woke
    omega
  · exact Nat.le_succ _

/-- A thread blocks, or what it takes pays for what it does with it. -/
theorem next_toil (pool : ThreadPool.State ℕ) :
    threadToil pool.clock (ThreadPool.next pool).1 + 4 * (ThreadPool.next pool).2.work.length ≤
      4 * pool.work.length := by
  unfold ThreadPool.next
  split
  · simp [threadToil]
  · split
    · rename_i empty
      simp [threadToil]
    · rename_i top rest work
      split
      · have after : ∀ notify : Bool, threadToil pool.clock
            (if notify then .notifying top.f else .running top.f) ≤ 4 := by
          intro notify
          cases notify
          · exact Nat.le_add_left 2 2
          · exact Nat.le_refl 4
        have := after (!rest.isEmpty && !pool.haveSleeper)
        simp only [work, List.length_cons]
        omega
      · rename_i early
        split
        · simp [threadToil]
        · simp [threadToil, early]

theorem acquire_toil {w after : Worker ℕ}
    (acquired : ThreadPool.acquire pool w = some (after, pool')) :
    threadToil pool.clock after + 4 * pool'.work.length <
      threadToil pool.clock w + 4 * pool.work.length := by
  cases w with
  | locking | woken =>
      have bound := next_toil pool
      rw [Option.some.inj acquired] at bound
      simp only [threadToil] at bound ⊢
      omega
  | sleeperWoken =>
      simp only [ThreadPool.acquire, ThreadPool.wakeSleeper] at acquired
      split at acquired
      · have bound := next_toil { pool with haveSleeper := false }
        rw [Option.some.inj acquired] at bound
        simp only [threadToil] at bound ⊢
        omega
      · cases acquired
        simp only [threadToil]
        omega
  | waiting | sleeping | notifying | running | checkFailed | exited => cases acquired

theorem schedule_toil (pool : ThreadPool.State ℕ) (t : ℤ) (f : ℕ) :
    callToil (ThreadPool.schedule pool t f).1 + 4 * (ThreadPool.schedule pool t f).2.work.length <
      7 + 4 * pool.work.length := by
  have queue : (ThreadPool.schedule pool t f).2.work.length = pool.work.length + 1 :=
    (ThreadPool.push_perm _ _).length_eq
  have call : callToil (ThreadPool.schedule pool t f).1 ≤ 2 := by
    unfold ThreadPool.schedule
    dsimp only
    split
    · exact Nat.le_refl 2
    · exact Nat.zero_le 2
  omega

/-- What the threads of a pool do without anybody else comes to an end. -/
theorem toil_lowered {a : ThreadPool.Action ℕ} (internal : inside a = true)
    (notSpurious : ∀ j, a ≠ .spurious j) (stepped : ThreadPool.step pool a = some pool') :
    toil pool' < toil pool := by
  unfold toil
  cases ThreadPool.moved_of_step stepped with
  | @lockScheduler i t f found =>
      have calls := total_set callToil (ThreadPool.schedule pool t f).1 found
      have bound := schedule_toil pool t f
      have threads : total (threadToil (ThreadPool.schedule pool t f).2.clock)
          (ThreadPool.schedule pool t f).2.workers = total (threadToil pool.clock) pool.workers := rfl
      have price : callToil (.locking t f) = 7 := rfl
      dsimp only
      omega
  | @notifyScheduler i target wake workers found notified =>
      have calls := total_set callToil .done found
      have threads := @notifyOne_toil wake target pool.clock _ _ notified
      simp only [callToil] at calls
      dsimp only
      omega
  | @lockWorker j w after next found acquired =>
      obtain ⟨clock, schedulers⟩ := acquire_rest acquired
      have threads := total_set (threadToil pool.clock) after found
      have bound := acquire_toil acquired
      dsimp only
      rw [clock, schedulers]
      omega
  | @notifyWorker j target f workers found notified =>
      have moved := total_set (threadToil pool.clock) (.running f) found
      have threads := @notifyOne_toil .cv target pool.clock _ _ notified
      simp only [threadToil] at moved
      dsimp only
      omega
  | @timeout j deadline found due =>
      have moved := total_set (threadToil pool.clock) .sleeperWoken found
      simp only [threadToil, due, ↓reduceIte] at moved
      dsimp only
      omega
  | waits | sleeps => exact absurd rfl (notSpurious _)
  | tick | call | finish | destroy | destroyNotifyAll | destroyNotifySleeper => cases internal

theorem toil_call (pool : ThreadPool.State ℕ) (t : ℤ) (f : ℕ) :
    toil { pool with schedulers := pool.schedulers ++ [.locking t f] } = toil pool + 7 := by
  simp only [toil, total_append, total_cons, total_nil, callToil]
  omega

theorem toil_finish {k f : ℕ} (runs : pool.workers[k]? = some (.running f)) :
    toil { pool with workers := pool.workers.set k .locking } < toil pool := by
  have moved := total_set (threadToil pool.clock) .locking runs
  simp only [threadToil] at moved
  simp only [toil]
  omega

end Toil

section Tasks

variable {s : State κ A}

theorem taskCost_due {clock : ℕ} {tasks : List (ℤ × ℕ)} (due : ∀ task ∈ tasks, task.1 ≤ clock) :
    total (Dns.taskCost clock) tasks = Dns.execution * tasks.length := by
  induction tasks with
  | nil => rfl
  | cons head rest ih =>
      have tail := ih fun task member => due task (List.mem_cons_of_mem head member)
      have first : Dns.taskCost clock head = Dns.execution := if_pos (due head List.mem_cons_self)
      rw [total_cons, tail, first, List.length_cons, Nat.mul_succ, Nat.add_comm]

/-- What a task costs does not depend on the time at which it was due. -/
theorem Implements.budget {d : Dns.State κ A} (abstraction : Implements s d) :
    d.budget opt = s.plain.budget opt := by
  obtain ⟨same, taken, held⟩ := abstraction
  have length : taken.length = s.hands.reduceOption.length := by
    rw [← List.length_map Prod.snd]
    exact held.held.length_eq
  have due : ∀ task ∈ s.hands.reduceOption.map fun it => ((0 : ℤ), it),
      task.1 ≤ s.dns.clock := by
    intro task member
    obtain ⟨it, -, rfl⟩ := List.mem_map.mp member
    exact Int.natCast_nonneg _
  have hands := taskCost_due due
  rw [List.length_map, ← length, ← taskCost_due held.due] at hands
  have tasks : total (Dns.taskCost s.dns.clock) d.tasks =
      total (Dns.taskCost s.dns.clock) s.tasks := by
    rw [total_perm _ held.places, State.tasks, total_append, total_append, hands]
  rw [same]
  simp only [State.plain, Dns.State.budget, tasks]
  rfl

/-- Blocked threads have no functions. -/
theorem asleep_hands
    (blocked : ∀ w ∈ s.pool.workers, w = .waiting ∨ ∃ d, w = .sleeping d ∧ s.pool.clock < d) :
    s.hands.reduceOption = [] := by
  apply (List.reduceOption_eq_nil_iff _).mpr
  refine ⟨s.threads.length, List.eq_replicate_iff.mpr ⟨by simp [State.hands], ?_⟩⟩
  intro hand member
  obtain ⟨k, -, rfl⟩ := List.mem_map.mp member
  unfold State.hand
  split
  · cases found : s.pool.workers[k]? with
    | none => simp [found]
    | some w =>
        rcases blocked w (List.mem_of_getElem? found) with rfl | ⟨d, rfl, -⟩
        · simp [found, Worker.function]
        · simp [found, Worker.function]
  · rfl

end Tasks

section Step

variable [DecidableEq κ] {s t : State κ A} {a : Action κ A}

/-- A step between the functions of the threads lowers what the pool has to do, and every other one
raises it by a call of `Schedule` at most. -/
theorem moved_toil (inner : a.inner) (moved : Moved opt s a t) :
    toil t.pool ≤ toil s.pool + 7 ∧ (a.threads = true → toil t.pool < toil s.pool) := by
  cases moved with
  | tick elapsed => exact inner.elim
  | resolver | enters => exact ⟨Nat.le_add_right _ 7, nofun⟩
  | @pool b pool internal stepped =>
      have less := toil_lowered internal (by rintro j rfl; exact inner) stepped
      exact ⟨by dsimp only; omega, fun _ => less⟩
  | schedules found =>
      refine ⟨?_, nofun⟩
      exact Nat.le_of_eq (toil_call _ _ _)
  | reschedules thread found =>
      refine ⟨?_, nofun⟩
      exact Nat.le_of_eq (toil_call _ _ _)
  | returns found back runs =>
      have less := toil_finish runs
      exact ⟨by dsimp only; omega, fun _ => less⟩

/-- A step of a resolver and its threads spends at least one of the steps that they have left. -/
theorem budget_lowered {d : Dns.State κ A} (spaced : opt.Spaced s.dns.clock)
    (reach : Dns.Reachable opt d) (wired : Wired s) (abstraction : Implements s d)
    (inner : a.inner) (moved : Moved opt s a t) : t.budget opt < s.budget opt := by
  obtain ⟨more, less⟩ := moved_toil inner moved
  cases implements_kept wired abstraction moved with
  | stays same threads =>
      have before : d.budget opt = s.plain.budget opt := abstraction.budget
      have after : d.budget opt = t.plain.budget opt := same.budget
      have lowered := less threads
      simp only [State.budget]
      omega
  | moves stepped next inside =>
      have clock : d.clock = s.dns.clock := by rw [abstraction.same]
      have spent := Dns.spends.lowered _ _ _ ⟨reach, clock ▸ spaced⟩ (inside inner) stepped
      rw [next.budget, abstraction.budget] at spent
      simp only [State.budget]
      omega

end Step

section Rest

variable [DecidableEq κ] {numThreads : ℕ} {s t : State κ A}

theorem clock_of_inner {a : Action κ A} (inner : a.inner) (moved : Moved opt s a t) :
    t.dns.clock = s.dns.clock := by
  cases moved with
  | tick => exact inner.elim
  | resolver free stepped => exact Dns.clock_of_inner inner (Dns.step_cases stepped)
  | pool | schedules | enters | reschedules | returns => rfl

theorem spends : Runs.Spends (step opt) Action.inner
    (fun s : State κ A => Reachable opt numThreads s ∧ opt.Spaced s.dns.clock)
    (State.budget opt) := by
  constructor
  · rintro s a t ⟨reach, spaced⟩ inner stepped
    refine ⟨.move reach ⟨a, trivial, stepped⟩, ?_⟩
    rw [clock_of_inner inner (moved_of_step stepped)]
    exact spaced
  · rintro s a t ⟨reach, spaced⟩ inner stepped
    obtain ⟨d, plain, abstraction⟩ := simulates.reachable reach
    exact budget_lowered spaced plain (Reachable.wired reach) abstraction inner
      (moved_of_step stepped)

/-- The resolver alone has nothing to do that does not take a thread. -/
theorem rests_resolver (rests : Runs.Rests (step opt) Action.inner s) {a : Dns.Action κ A}
    (free : alone a = true) (inner : a.inner) : Dns.step opt s.dns a = none := by
  have stuck := rests (.resolver a) inner
  simpa [step, free] using stuck

theorem rests_pool (rests : Runs.Rests (step opt) Action.inner s) {a : ThreadPool.Action ℕ}
    (internal : inside a = true) (notSpurious : Action.inner (.pool a : Action κ A)) :
    ThreadPool.step s.pool a = none := by
  have stuck := rests (.pool a) notSpurious
  simpa [step, internal] using stuck

theorem rests_calls (rests : Runs.Rests (step opt) Action.inner s) :
    ∀ c ∈ s.dns.calls, c = .done := by
  intro c member
  obtain ⟨i, found⟩ := List.mem_iff_getElem?.mp member
  cases c with
  | locking host_port cb now =>
      have stuck := rests_resolver rests (a := .lockCall i) rfl trivial
      simp [Dns.step, found] at stuck
  | scheduling it now =>
      have stuck := rests (.scheduleCall i) trivial
      simp [step, found, ThreadPool.step] at stuck
  | calling answer =>
      have stuck := rests_resolver rests (a := .answerCall i) rfl trivial
      simp [Dns.step, found] at stuck
  | done => rfl

theorem rests_executions (wired : Wired s) (fine : Dns.NoneDangles s.dns)
    (rests : Runs.Rests (step opt) Action.inner s) : ∀ w ∈ s.dns.workers, w = .done := by
  intro w member
  obtain ⟨j, found⟩ := List.mem_iff_getElem?.mp member
  cases w with
  | locking it now =>
      have stuck := rests_resolver rests (a := .lockWorker j) rfl trivial
      simp only [Dns.step, found] at stuck
      split at stuck <;> cases stuck
  | resolving it =>
      have stuck := rests_resolver rests (a := .returnResolve j none) rfl trivial
      simp only [Dns.step, found] at stuck
      split at stuck <;> cases stuck
  | resolved it lookup addr =>
      have stuck := rests_resolver rests (a := .readClock j) rfl trivial
      simp [Dns.step, found] at stuck
  | recording it lookup addr now =>
      have stuck := rests_resolver rests (a := .lockRecord j) rfl trivial
      simp only [Dns.step, found] at stuck
      split at stuck <;> cases stuck
  | calling it callbacks addr index now seen =>
      cases callbacks with
      | nil =>
          have stuck := rests_resolver rests (a := .relock j) rfl trivial
          simp only [Dns.step, found] at stuck
          split at stuck <;> cases stuck
      | cons cb rest =>
          have stuck := rests_resolver rests (a := .callback j) rfl trivial
          simp [Dns.step, found] at stuck
  | scheduling it next =>
      obtain ⟨k, thread⟩ := wired.jobs j _ found (by simp)
      have stuck := rests (.schedule k) trivial
      simp [step, thread, found, ThreadPool.step] at stuck
  | done => rfl
  | dangling => exact absurd member fine

/-- `notify_one` does not block. -/
theorem exists_notifyOne (wake : CondVar) (workers : List (Worker ℕ)) :
    ∃ target after, ThreadPool.notifyOne wake target workers = some after := by
  by_cases nobody : (workers.all fun w => (w.wake wake).isNone) = true
  · exact ⟨none, workers, by simp [ThreadPool.notifyOne, nobody]⟩
  · obtain ⟨w, member, blocked⟩ : ∃ w ∈ workers, (w.wake wake).isSome = true := by
      simpa [Option.isSome_iff_ne_none] using nobody
    obtain ⟨j, found⟩ := List.mem_iff_getElem?.mp member
    obtain ⟨y, woke⟩ := Option.isSome_iff_exists.mp blocked
    exact ⟨some j, workers.set j y, by simp [ThreadPool.notifyOne, found, woke]⟩

theorem rests_schedulers (rests : Runs.Rests (step opt) Action.inner s) :
    ∀ x ∈ s.pool.schedulers, x = .done := by
  intro x member
  obtain ⟨i, found⟩ := List.mem_iff_getElem?.mp member
  cases x with
  | locking t f =>
      have stuck := rests_pool rests (a := .lockScheduler i) rfl trivial
      simp [ThreadPool.step, found] at stuck
  | notifying wake =>
      obtain ⟨target, after, notified⟩ := exists_notifyOne wake s.pool.workers
      have stuck := rests_pool rests (a := .notifyScheduler i target) rfl trivial
      simp [ThreadPool.step, found, notified] at stuck
  | done => rfl

/-- No thread runs a function: whichever it is in returns. -/
theorem rests_threads (wired : Wired s) (executions : ∀ w ∈ s.dns.workers, w = .done)
    (schedulers : ∀ x ∈ s.pool.schedulers, x = .done)
    (rests : Runs.Rests (step opt) Action.inner s) : ∀ thread ∈ s.threads, thread = .idle := by
  intro thread member
  obtain ⟨k, found⟩ := List.mem_iff_getElem?.mp member
  apply Decidable.byContradiction
  intro active
  have back : s.returned thread = true := by
    cases thread with
    | idle => exact absurd rfl active
    | processing j =>
        have last := List.getElem?_eq_getElem (wired.entered j member)
        rw [executions _ (List.getElem_mem _)] at last
        rw [State.returned, last]
    | scheduling i =>
        have last := List.getElem?_eq_getElem (wired.called i member)
        rw [schedulers _ (List.getElem_mem _)] at last
        rw [State.returned, last]
  obtain ⟨f, runs⟩ := wired.busy k thread found active
  have stuck := rests (.leave k) trivial
  simp [step, found, back, ThreadPool.step, runs] at stuck

theorem inside_exit {a : ThreadPool.Action ℕ} {pool pool' : ThreadPool.State ℕ}
    (internal : inside a = true) (stepped : ThreadPool.step pool a = some pool') :
    pool'.exit = pool.exit := by
  cases ThreadPool.moved_of_step stepped with
  | lockWorker found acquired => exact (ThreadPool.acquire_flags acquired).1
  | lockScheduler | notifyScheduler | notifyWorker | timeout | waits | sleeps => rfl
  | tick | call | finish | destroy | destroyNotifyAll | destroyNotifySleeper => cases internal

/-- Nobody destroys the pool of a resolver. -/
theorem Reachable.running (reach : Reachable opt numThreads s) : s.pool.exit = false := by
  induction reach with
  | start initial =>
      obtain ⟨clock, rfl⟩ := initial
      rfl
  | move before moved ih =>
      obtain ⟨a, -, step⟩ := moved
      cases moved_of_step step with
      | pool internal stepped => exact (inside_exit internal stepped).trans ih
      | tick | resolver | schedules | enters | reschedules | returns => exact ih

/-- Every thread is blocked, and not on a deadline that has come. -/
theorem rests_workers (reach : Reachable opt numThreads s)
    (idle : ∀ thread ∈ s.threads, thread = .idle)
    (rests : Runs.Rests (step opt) Action.inner s) :
    ∀ w ∈ s.pool.workers, w = .waiting ∨ ∃ d, w = .sleeping d ∧ s.pool.clock < d := by
  have shutdown := ThreadPool.reachable_shutdown reach.pool
  intro w member
  obtain ⟨k, found⟩ := List.mem_iff_getElem?.mp member
  cases w with
  | locking | woken | sleeperWoken =>
      have stuck := rests_pool rests (a := .lockWorker k) rfl trivial
      simp [ThreadPool.step, found, ThreadPool.acquire] at stuck
  | waiting => exact Or.inl rfl
  | sleeping d =>
      refine Or.inr ⟨d, rfl, ?_⟩
      apply Int.lt_of_not_ge
      intro due
      have stuck := rests_pool rests (a := .timeout k) rfl trivial
      simp [ThreadPool.step, found, due] at stuck
  | notifying f =>
      obtain ⟨target, after, notified⟩ := exists_notifyOne .cv (s.pool.workers.set k (.running f))
      have stuck := rests_pool rests (a := .notifyWorker k target) rfl trivial
      simp [ThreadPool.step, found, notified] at stuck
  | running f =>
      have inside : k < s.threads.length := by
        rw [reach.wired.length]
        exact (List.getElem?_eq_some_iff.mp found).1
      have thread := List.getElem?_eq_getElem inside
      rw [idle _ (List.getElem_mem _)] at thread
      have stuck := rests (.enter k) trivial
      simp [step, found, thread] at stuck
  | checkFailed => exact absurd member shutdown.checked
  | exited => exact absurd (shutdown.left member) (by simp [reach.running])

/-- Nothing that is due is left to blocked threads. -/
theorem asleep_later {pool : ThreadPool.State ℕ} (positive : 0 < numThreads)
    (inv : ThreadPool.Inv numThreads none pool) (running : pool.exit = false)
    (schedulers : ∀ x ∈ pool.schedulers, x = .done)
    (blocked : ∀ w ∈ pool.workers, w = .waiting ∨ ∃ d, w = .sleeping d ∧ pool.clock < d) :
    ∀ w ∈ pool.work, pool.clock < w.t := by
  have calls : ∀ wake, total (Scheduler.notifies wake) pool.schedulers = 0 := by
    intro wake
    apply total_eq_zero.mpr
    intro x member
    rw [schedulers x member]
    rfl
  have notifies : total Worker.notifies pool.workers = 0 := by
    apply total_eq_zero.mpr
    intro w member
    rcases blocked w member with rfl | ⟨d, rfl, -⟩ <;> rfl
  have awake : total Worker.awake pool.workers = 0 := by
    apply total_eq_zero.mpr
    intro w member
    rcases blocked w member with rfl | ⟨d, rfl, -⟩ <;> rfl
  intro v queued
  cases work : pool.work with
  | nil =>
      rw [work] at queued
      cases queued
  | cons top rest =>
      have sleeper := inv.sleeper
      have holds : pool.haveSleeper = true := by
        apply Bool.not_eq_false _ |>.mp
        intro alone
        rw [alone] at sleeper
        obtain ⟨w, member⟩ := List.exists_mem_of_length_pos (inv.threads ▸ positive)
        have waiting : 1 ≤ w.waits := by
          rcases blocked w member with rfl | ⟨d, rfl, -⟩
          · exact Nat.le_refl 1
          · have := total_eq_zero.mp sleeper _ member
            cases this
        have waits := weight_le_total Worker.waits member
        have covered := inv.covered running alone (by simp [work]) (by omega)
        simp [ThreadPool.State.cvNotifications, calls, notifies, awake, ThreadPool.issuing] at covered
      rw [holds] at sleeper
      have one : 0 < total Worker.sleeps pool.workers := by
        rw [sleeper]
        exact Nat.one_pos
      obtain ⟨w, member, sleeps⟩ := exists_of_total_pos one
      rcases blocked w member with rfl | ⟨d, rfl, later⟩
      · cases sleeps
      · have early : d ≤ top.t := by
          rcases inv.deadline d member top (by simp [work]) with early | notified
          · exact early
          · simp [ThreadPool.State.sleeperNotifications, calls, ThreadPool.issuing] at notified
        have first : top.t ≤ v.t := by
          have ordered := inv.ordered
          rw [work] at queued ordered
          rcases List.mem_cons.mp queued with rfl | queued
          · exact Int.le_refl _
          · exact ordered.head_le queued
        omega

theorem scheduled_done {pool : ThreadPool.State ℕ} (schedulers : ∀ x ∈ pool.schedulers, x = .done) :
    scheduled pool = pool.work.map fun w => (w.t, w.f) := by
  have none : (pool.schedulers.map task).reduceOption = [] := by
    apply (List.reduceOption_eq_nil_iff _).mpr
    refine ⟨pool.schedulers.length, List.eq_replicate_iff.mpr ⟨by simp, ?_⟩⟩
    intro y member
    obtain ⟨x, there, rfl⟩ := List.mem_map.mp member
    rw [schedulers x there]
    rfl
  rw [scheduled, none, List.append_nil]

/-- A resolver and its threads have nothing to do before the clock goes on: the queue of the pool
holds one task for each entry of `cache_`, for later, and every callback has been called. -/
structure Quiet (s : State κ A) : Prop where
  calls : ∀ c ∈ s.dns.calls, c = .done
  blocked : ∀ w ∈ s.pool.workers, w = .waiting ∨ ∃ d, w = .sleeping d ∧ s.pool.clock < d
  later : ∀ w ∈ s.pool.work, s.pool.clock < w.t
  tasks : ∀ it, (s.pool.work.map ThreadPool.Work.f).count it = (s.dns.node it).isSome.toNat
  called : (s.dns.answers.map Dns.Answer.cb).Perm s.dns.issued

theorem total_count (tasks : List (ℤ × ℕ)) (it : ℕ) :
    total (fun task => if task.2 = it then 1 else 0) tasks = (tasks.map Prod.snd).count it := by
  induction tasks with
  | nil => rfl
  | cons head rest ih =>
      rw [total_cons, ih, List.map_cons, List.count_cons, Nat.add_comm]
      simp

theorem quiet_of_rests (positive : 0 < numThreads) (reach : Reachable opt numThreads s)
    (rests : Runs.Rests (step opt) Action.inner s) : Quiet s := by
  obtain ⟨d, plain, same, taken, held⟩ := simulates.reachable reach
  have fine : Dns.NoneDangles s.dns := by
    have fine := Dns.Reachable.noneDangles plain
    rw [same] at fine
    exact fine
  have calls := rests_calls rests
  have executions := rests_executions reach.wired fine rests
  have schedulers := rests_schedulers rests
  have idle := rests_threads reach.wired executions schedulers rests
  have blocked := rests_workers reach idle rests
  have later := asleep_later positive (ThreadPool.reachable_inv reach.pool) reach.running schedulers
    blocked
  have nobody : taken = [] := by
    have none := held.held
    rw [asleep_hands blocked] at none
    exact List.map_eq_nil_iff.mp none.eq_nil
  have places := held.places
  rw [nobody, List.append_nil, scheduled_done schedulers] at places
  have quiet : Dns.Quiet d := by
    refine ⟨?_, ?_, ?_⟩
    · rw [same]
      exact calls
    · rw [same]
      exact executions
    · intro task member
      obtain ⟨w, queued, rfl⟩ := List.mem_map.mp (places.mem_iff.mp member)
      rw [same, ← reach.wired.clock]
      exact later w queued
  refine ⟨calls, blocked, later, ?_, ?_⟩
  · intro it
    have one := quiet.scheduled (Dns.ReachableIf.singleTask plain) it
    have queue := (places.map Prod.snd).count_eq it
    rw [total_count, queue, List.map_map, same] at one
    exact one
  · have called := quiet.called plain
    rw [same] at called
    exact called

/-- Callbacks come from outside. -/
theorem issued_of_moved {a : Action κ A} (inner : a.inner) (moved : Moved opt s a t) :
    t.dns.issued = s.dns.issued := by
  cases moved with
  | tick elapsed => rfl
  | resolver free stepped =>
      cases Dns.step_cases stepped with
      | call => exact inner.elim
      | _ => rfl
  | pool | schedules | enters | reschedules | returns => rfl

theorem replay_inner {actions : List (Action κ A)} (reach : Reachable opt numThreads s)
    (inner : ∀ a ∈ actions, Action.inner a)
    (ran : Runs.replay (step opt) s actions = some t) :
    Reachable opt numThreads t ∧ t.dns.issued = s.dns.issued := by
  induction actions generalizing s with
  | nil =>
      cases ran
      exact ⟨reach, rfl⟩
  | cons a rest ih =>
      obtain ⟨u, stepped, ran⟩ := Option.bind_eq_some_iff.mp ran
      have first := inner a List.mem_cons_self
      have next : Reachable opt numThreads u := .move reach ⟨a, trivial, stepped⟩
      obtain ⟨final, issued⟩ :=
        ih next (fun b member => inner b (List.mem_cons_of_mem a member)) ran
      exact ⟨final, issued.trans (issued_of_moved first (moved_of_step stepped))⟩

/-- Nothing gets stuck between the resolver and its threads. While the clock stands still and nobody
calls `Resolve` they make no more steps than their budget, however they are interleaved and whomever
a notification wakes; they can always come to rest, and when they rest, with at least one thread,
every callback that was passed to `Resolve` has been called once, nothing that is due is left in the
queue of the pool, and every entry of `cache_` is in it. -/
theorem settles (positive : 0 < numThreads) (spaced : opt.Spaced s.dns.clock)
    (reach : Reachable opt numThreads s) :
    (∀ actions t, (∀ a ∈ actions, Action.inner a) → Runs.replay (step opt) s actions = some t →
      actions.length ≤ s.budget opt ∧
      (Runs.Rests (step opt) Action.inner t → Quiet t ∧ t.dns.issued = s.dns.issued)) ∧
    ∃ actions t, (∀ a ∈ actions, Action.inner a) ∧ Runs.replay (step opt) s actions = some t ∧
      Runs.Rests (step opt) Action.inner t := by
  refine ⟨?_, spends.exists_rest ⟨reach, spaced⟩⟩
  intro actions t inner ran
  have bound := spends.length_le ⟨reach, spaced⟩ inner ran
  refine ⟨by omega, fun rests => ?_⟩
  obtain ⟨final, issued⟩ := replay_inner reach inner ran
  exact ⟨quiet_of_rests positive final rests, issued⟩

end Rest

/-- Two threads look up two names, and both callbacks are still to be called. -/
theorem settles_twoNames : ∃ actions t, (∀ a ∈ actions, Action.inner a) ∧
    Runs.replay (step ⟨1, 1, 1⟩) twoNames actions = some t ∧
    (t.dns.answers.map Dns.Answer.cb).Perm [0, 1] := by
  have spaced : Dns.Options.Spaced ⟨1, 1, 1⟩ twoNames.dns.clock :=
    ⟨by decide, by decide, by decide, by decide⟩
  obtain ⟨runs, actions, t, inner, ran, rests⟩ :=
    settles (by decide) spaced twoNames_reachable
  obtain ⟨quiet, issued⟩ := (runs actions t inner ran).2 rests
  have called := quiet.called
  rw [issued] at called
  exact ⟨actions, t, inner, ran, called⟩

end Hcproxy.Resolver
