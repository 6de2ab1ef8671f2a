import Hcproxy.DnsRest
import Hcproxy.Lib.Simulations
import Hcproxy.Resolver
import Hcproxy.ThreadPoolShutdown
import Mathlib.Data.List.Perm.Basic

set_option autoImplicit false

namespace Hcproxy.Resolver

open Hcproxy.ThreadPool (Scheduler Worker)

variable {κ A : Type} {opt : Dns.Options}

/-- The steps of a resolver and its threads themselves. The clock goes on, and threads call `Resolve`,
from outside; a wait that returns for no reason is nobody's step. -/
def Action.inner : Action κ A → Prop
  | .tick _ | .pool (.spurious _) => False
  | .resolver a => a.inner
  | _ => True

/-- The steps of threads between the functions that they run. -/
def Action.threads : Action κ A → Bool
  | .pool _ | .leave _ => true
  | _ => false

/-- What a call of `Schedule` has not put into the queue yet. -/
def task : Scheduler ℕ → Option (ℤ × ℕ)
  | .locking t f => some (t, f)
  | _ => none

/-- What is in the queue of the pool or on its way there. -/
def scheduled (pool : ThreadPool.State ℕ) : List (ℤ × ℕ) :=
  pool.work.map (fun w => (w.t, w.f)) ++ (pool.schedulers.map task).reduceOption

/-- The function that a thread has taken and not entered. -/
def State.hand (s : State κ A) (k : ℕ) : Option ℕ :=
  match s.threads[k]? with
  | some .idle => (s.pool.workers.map Worker.function)[k]?.join
  | _ => none

def State.hands (s : State κ A) : List (Option ℕ) := (List.range s.threads.length).map s.hand

/-- The tasks of a resolver are those that are scheduled, and those that its threads have taken when
they were due. -/
structure Tasks (s : State κ A) (tasks taken : List (ℤ × ℕ)) : Prop where
  places : tasks.Perm (scheduled s.pool ++ taken)
  held : (taken.map Prod.snd).Perm s.hands.reduceOption
  due : ∀ task ∈ taken, task.1 ≤ s.dns.clock

/-- A resolver with its threads stands for one that has its tasks in a list. -/
structure Implements (s : State κ A) (d : Dns.State κ A) : Prop where
  same : d = { s.dns with tasks := d.tasks }
  tasks : ∃ taken, Tasks s d.tasks taken

/-- How the threads of the pool, the executions of `ProcessCacheEntry` and the two readings of the
clock belong together. -/
structure Wired (s : State κ A) : Prop where
  clock : s.pool.clock = s.dns.clock
  length : s.threads.length = s.pool.workers.length
  busy : ∀ (k : ℕ) (thread : Thread), s.threads[k]? = some thread → thread ≠ .idle →
    ∃ f, s.pool.workers[k]? = some (.running f)
  jobs : ∀ (j : ℕ) (w : Dns.Worker κ A), s.dns.workers[j]? = some w → w ≠ .done →
    ∃ k : ℕ, s.threads[k]? = some (.processing j)
  entered : ∀ j : ℕ, .processing j ∈ s.threads → j < s.dns.workers.length
  called : ∀ i : ℕ, .scheduling i ∈ s.threads → i < s.pool.schedulers.length

section Hands

variable {s t : State κ A}

theorem hands_same (length : t.threads.length = s.threads.length)
    (same : ∀ i, t.hand i = s.hand i) : t.hands = s.hands := by
  rw [State.hands, State.hands, length]
  exact List.map_congr_left fun i _ => same i

/-- One thread has taken or entered a function. -/
theorem hands_set {k : ℕ} (length : t.threads.length = s.threads.length)
    (others : ∀ i, i ≠ k → t.hand i = s.hand i) : t.hands = s.hands.set k (t.hand k) := by
  apply List.ext_getElem
  · simp [State.hands, length]
  · intro i _ _
    by_cases same : k = i
    · subst same
      simp [State.hands]
    · simp [State.hands, List.getElem_set_ne same, others i (Ne.symm same)]

theorem hands_getElem? {k : ℕ} (inside : k < s.threads.length) : s.hands[k]? = some (s.hand k) := by
  simp [State.hands, inside]

theorem hand_congr {k : ℕ} (threads : t.threads[k]? = s.threads[k]?)
    (functions : (t.pool.workers.map Worker.function)[k]? =
      (s.pool.workers.map Worker.function)[k]?) : t.hand k = s.hand k := by
  rw [State.hand, State.hand, threads, functions]

theorem hand_idle {k : ℕ} {w : Worker ℕ} (idle : s.threads[k]? = some .idle)
    (found : s.pool.workers[k]? = some w) : s.hand k = w.function := by
  simp [State.hand, idle, found]

theorem hand_busy {k : ℕ} {thread : Thread} (found : s.threads[k]? = some thread)
    (active : thread ≠ .idle) : s.hand k = none := by
  unfold State.hand
  split
  · rename_i idle
    exact absurd (Option.some.inj (found.symm.trans idle)) active
  · rfl

theorem hands_getElem?_of {k : ℕ} {thread : Thread} (found : s.threads[k]? = some thread) :
    s.hands[k]? = some (s.hand k) := hands_getElem? (List.getElem?_eq_some_iff.mp found).1

/-- A thread enters a function. -/
theorem hands_enter {k : ℕ} {thread before : Thread} (found : s.threads[k]? = some before)
    (threads : t.threads = s.threads.set k thread) (pool : t.pool = s.pool)
    (active : thread ≠ .idle) : t.hands = s.hands.set k none := by
  have entered : t.threads[k]? = some thread := by
    rw [threads]
    exact List.getElem?_set_self (List.getElem?_eq_some_iff.mp found).1
  rw [← hand_busy entered active]
  apply hands_set
  · rw [threads, List.length_set]
  · intro i other
    apply hand_congr
    · rw [threads, List.getElem?_set_ne (Ne.symm other)]
    · rw [pool]

theorem Tasks.of_same {tasks taken : List (ℤ × ℕ)} (held : Tasks s tasks taken)
    (left : (scheduled t.pool).Perm (scheduled s.pool)) (hands : t.hands = s.hands)
    (clock : s.dns.clock ≤ t.dns.clock) : Tasks t tasks taken := by
  refine ⟨held.places.trans (left.symm.append_right _), ?_, ?_⟩
  · rw [hands]
    exact held.held
  · exact fun task member => Int.le_trans (held.due task member) (Int.ofNat_le.mpr clock)

theorem Tasks.schedules {tasks taken : List (ℤ × ℕ)} {task : ℤ × ℕ} (held : Tasks s tasks taken)
    (more : scheduled t.pool = scheduled s.pool ++ [task]) (hands : t.hands = s.hands)
    (clock : t.dns.clock = s.dns.clock) : Tasks t (tasks ++ [task]) taken := by
  refine ⟨?_, ?_, ?_⟩
  · rw [more, List.append_assoc, List.singleton_append]
    apply (List.perm_append_singleton task tasks).trans
    exact (held.places.cons task).trans List.perm_middle.symm
  · rw [hands]
    exact held.held
  · rw [clock]
    exact held.due

theorem Tasks.takes {tasks taken : List (ℤ × ℕ)} {task : ℤ × ℕ} {k : ℕ} (held : Tasks s tasks taken)
    (left : (scheduled s.pool).Perm (task :: scheduled t.pool)) (empty : s.hands[k]? = some none)
    (hands : t.hands = s.hands.set k (some task.2)) (due : task.1 ≤ s.dns.clock)
    (clock : t.dns.clock = s.dns.clock) : Tasks t tasks (task :: taken) := by
  refine ⟨?_, ?_, ?_⟩
  · exact held.places.trans ((left.append_right taken).trans List.perm_middle.symm)
  · rw [hands, List.map_cons]
    exact (held.held.cons task.2).trans (ThreadPool.reduceOption_take empty).symm
  · rw [clock]
    intro other member
    rcases List.mem_cons.mp member with rfl | member
    · exact due
    · exact held.due other member

theorem Tasks.enters {tasks taken : List (ℤ × ℕ)} {k it : ℕ} (held : Tasks s tasks taken)
    (mine : s.hands[k]? = some (some it)) (hands : t.hands = s.hands.set k none)
    (same : scheduled t.pool = scheduled s.pool) (clock : t.dns.clock = s.dns.clock) :
    ∃ (i : ℕ) (time : ℤ) (rest : List (ℤ × ℕ)), tasks[i]? = some (time, it) ∧ time ≤ s.dns.clock ∧
      Tasks t (tasks.eraseIdx i) rest := by
  have given := ThreadPool.reduceOption_give mine
  have there : it ∈ taken.map Prod.snd := by
    apply (held.held.trans given).mem_iff.mpr
    exact List.mem_cons_self
  obtain ⟨⟨time, f⟩, member, named⟩ := List.mem_map.mp there
  obtain rfl : f = it := named
  have removed := List.perm_cons_erase member
  have queued : (time, f) ∈ tasks := held.places.mem_iff.mpr (List.mem_append_right _ member)
  obtain ⟨i, inside, found⟩ := List.mem_iff_getElem.mp queued
  refine ⟨i, time, taken.erase (time, f), ?_, held.due _ member, ?_, ?_, ?_⟩
  · rw [List.getElem?_eq_getElem inside, found]
  · rw [same]
    have erased := List.getElem_cons_eraseIdx_perm inside
    rw [found] at erased
    have others := removed.append_left (scheduled s.pool)
    exact (erased.trans ((held.places.trans others).trans List.perm_middle)).cons_inv
  · rw [hands]
    exact (((removed.map Prod.snd).symm.trans held.held).trans given).cons_inv
  · rw [clock]
    exact fun task other => held.due task (List.mem_of_mem_erase other)

end Hands

section Tasks

variable [DecidableEq κ]

/-- What a resolver does without its threads has nothing to do with its tasks. -/
theorem step_tasks {a : Dns.Action κ A} (free : alone a = true) (s : Dns.State κ A)
    (tasks : List (ℤ × ℕ)) : Dns.step opt { s with tasks } a =
      (Dns.step opt s a).map fun t => { t with tasks } := by
  have node : ∀ it, Dns.State.node { s with tasks } it = s.node it := fun _ => rfl
  have resolve : ∀ host_port cb now, Dns.resolve opt { s with tasks } host_port cb now =
      Dns.resolve opt s host_port cb now := fun _ _ _ => rfl
  cases a with
  | tick | scheduleCall | start | schedule => cases free
  | call | lockCall | answerCall | lockWorker | returnResolve | readClock | lockRecord | callback
  | relock =>
      simp only [Dns.step, node, resolve]
      repeat' split
      all_goals rfl

theorem step_scheduled {s t d : Dns.State κ A} {a : Dns.Action κ A} (free : alone a = true)
    (stepped : Dns.step opt s a = some t) (same : d = { s with tasks := d.tasks }) :
    Dns.step opt d a = some { t with tasks := d.tasks } := by
  have moved := @step_tasks κ A opt _ a free s d.tasks
  rw [← same, stepped] at moved
  exact moved

/-- Such a step neither starts an execution of `ProcessCacheEntry` nor goes on with one that is
done. -/
theorem step_alone {s t : Dns.State κ A} {a : Dns.Action κ A} (free : alone a = true)
    (stepped : Dns.step opt s a = some t) :
    t.clock = s.clock ∧ t.workers.length = s.workers.length ∧
      ∀ (j : ℕ) (w : Dns.Worker κ A), t.workers[j]? = some w → w ≠ .done →
        ∃ v, s.workers[j]? = some v ∧ v ≠ .done := by
  have moves : ∀ {i : ℕ} {v y : Dns.Worker κ A}, s.workers[i]? = some v → v ≠ .done →
      ∀ (j : ℕ) (w : Dns.Worker κ A), (s.workers.set i y)[j]? = some w → w ≠ .done →
        ∃ v, s.workers[j]? = some v ∧ v ≠ .done := by
    intro i v y found active j w after going
    by_cases same : i = j
    · subst same
      exact ⟨v, found, active⟩
    · rw [List.getElem?_set_ne same] at after
      exact ⟨w, after, going⟩
  cases Dns.step_cases stepped with
  | tick | schedules | starts | reschedules => cases free
  | call | creates | queues | answers | calls =>
      exact ⟨rfl, rfl, fun j w found going => ⟨w, found, going⟩⟩
  | erases found | looksUp found | skips found | returns found | reads found | records found
  | callsBack found | relocks found => exact ⟨rfl, List.length_set .., moves found nofun⟩
  | dangles found uses erased =>
      refine ⟨rfl, List.length_set .., moves found ?_⟩
      rintro rfl
      cases uses

end Tasks

section Pool

variable {pool pool' : ThreadPool.State ℕ} {a : ThreadPool.Action ℕ}

/-- Only its return ends the execution of a function. -/
theorem running_kept (internal : inside a = true) (stepped : ThreadPool.step pool a = some pool')
    (length : pool'.workers.length = pool.workers.length) {k f : ℕ}
    (runs : pool.workers[k]? = some (.running f)) : pool'.workers[k]? = some (.running f) := by
  have within : k < pool'.workers.length := by
    rw [length]
    exact (List.getElem?_eq_some_iff.mp runs).1
  have found := List.getElem?_eq_getElem within
  obtain ⟨w, before, own | idle⟩ := ThreadPool.step_worker stepped found
  · cases runs.symm.trans before
    cases ThreadPool.moved_of_step stepped with
    | lockWorker taken acquired =>
        cases Option.some.inj own.1
        cases runs.symm.trans taken
        cases acquired
    | notifyWorker taken notified =>
        cases Option.some.inj own.1
        cases runs.symm.trans taken
    | finish | destroy | destroyNotifyAll | destroyNotifySleeper => cases internal
    | _ => cases own.1
  · cases runs.symm.trans before
    rcases idle.2 with same | ⟨wake, woke⟩
    · rw [found, same]
    · cases wake <;> cases woke

theorem tasks_set {schedulers : List (Scheduler ℕ)} {i : ℕ} {x y : Scheduler ℕ}
    (found : schedulers[i]? = some x) (same : task y = task x) :
    (schedulers.set i y).map task = schedulers.map task := by
  obtain ⟨within, rfl⟩ := List.getElem?_eq_some_iff.mp found
  rw [List.map_set, same, ← List.getElem_map task, List.set_getElem_self]
  simpa using within

theorem task_schedule (s : ThreadPool.State ℕ) (t : ℤ) (f : ℕ) :
    task (ThreadPool.schedule s t f).1 = none := by
  unfold ThreadPool.schedule
  dsimp only
  split <;> rfl

theorem scheduled_call (pool : ThreadPool.State ℕ) (t : ℤ) (f : ℕ) :
    scheduled { pool with schedulers := pool.schedulers ++ [.locking t f] } =
      scheduled pool ++ [(t, f)] := by
  simp [scheduled, task, List.reduceOption_append]

/-- A function gets from a call of `Schedule` into the queue. -/
theorem scheduled_lock {i f : ℕ} {t : ℤ} (found : pool.schedulers[i]? = some (.locking t f)) :
    (scheduled { (ThreadPool.schedule pool t f).2 with
      schedulers := pool.schedulers.set i (ThreadPool.schedule pool t f).1 }).Perm
        (scheduled pool) := by
  have waiting : (pool.schedulers.map task)[i]? = some (some (t, f)) := by
    simp [found, task]
  have given := ThreadPool.reduceOption_give waiting
  have queued := (ThreadPool.push_perm ⟨t, pool.lastIdx + 1, f⟩ pool.work).map fun w => (w.t, w.f)
  have left : (pool.schedulers.set i (ThreadPool.schedule pool t f).1).map task =
      (pool.schedulers.map task).set i none := by
    rw [List.map_set, task_schedule]
  simp only [scheduled]
  rw [left]
  apply (queued.append_right _).trans
  rw [List.map_cons]
  exact List.perm_middle.symm.trans (given.symm.append_left _)

theorem next_rest (pool : ThreadPool.State ℕ) : (ThreadPool.next pool).2.clock = pool.clock ∧
    (ThreadPool.next pool).2.schedulers = pool.schedulers := by
  have result := ThreadPool.next_spec pool
  generalize ThreadPool.next pool = moved at result
  cases result <;> exact ⟨rfl, rfl⟩

theorem acquire_rest {w after : Worker ℕ} (acquired : ThreadPool.acquire pool w =
    some (after, pool')) : pool'.clock = pool.clock ∧ pool'.schedulers = pool.schedulers := by
  cases w with
  | locking | woken =>
      have rest := next_rest pool
      rwa [Option.some.inj acquired] at rest
  | sleeperWoken =>
      simp only [ThreadPool.acquire, ThreadPool.wakeSleeper] at acquired
      split at acquired
      · have rest := next_rest { pool with haveSleeper := false }
        rwa [Option.some.inj acquired] at rest
      · cases acquired
        exact ⟨rfl, rfl⟩
  | waiting | sleeping | notifying | running | checkFailed | exited => cases acquired

/-- What a step of the pool does with its functions: a thread takes the first one, or nobody does. -/
inductive Passed (pool : ThreadPool.State ℕ) (pool' : ThreadPool.State ℕ) : Prop
  | nobody (left : (scheduled pool').Perm (scheduled pool))
      (functions : pool'.workers.map Worker.function = pool.workers.map Worker.function)
  | thread {k f : ℕ} {t : ℤ} {w y : Worker ℕ} (due : t ≤ pool.clock)
      (left : (scheduled pool).Perm ((t, f) :: scheduled pool'))
      (found : pool.workers[k]? = some w) (empty : w.function = none)
      (takes : y.function = some f) (workers : pool'.workers = pool.workers.set k y)

theorem step_passed (internal : inside a = true) (stepped : ThreadPool.step pool a = some pool') :
    Passed pool pool' ∧ pool'.clock = pool.clock ∧
      pool'.schedulers.length = pool.schedulers.length := by
  have same : ∀ {schedulers work workers}, work = pool.work →
      schedulers.map task = pool.schedulers.map task →
      (workers : List (Worker ℕ)).map Worker.function = pool.workers.map Worker.function →
      Passed pool { pool with schedulers, work, workers } := by
    intro schedulers work workers queue tasks functions
    refine .nobody ?_ functions
    rw [scheduled, scheduled, queue, tasks]
  cases ThreadPool.moved_of_step stepped with
  | lockScheduler found => exact ⟨.nobody (scheduled_lock found) rfl, rfl, List.length_set ..⟩
  | notifyScheduler found notified =>
      exact ⟨same rfl (tasks_set found rfl) (ThreadPool.functions_notifyOne notified), rfl,
        List.length_set ..⟩
  | @lockWorker j w after next found acquired =>
      obtain ⟨clock, schedulers⟩ := acquire_rest acquired
      obtain ⟨empty, took⟩ := ThreadPool.acquire_took acquired
      refine ⟨?_, clock, congrArg List.length schedulers⟩
      cases took with
      | nothing function work lastIdx =>
          have queue : next.work = pool.work := work
          refine .nobody ?_ ?_
          · rw [scheduled, scheduled, queue, schedulers]
          · exact ThreadPool.functions_set found (function.trans empty.symm)
      | @first top rest work due function left lastIdx =>
          have rest : next.work = rest := left
          refine .thread due ?_ found empty function rfl
          rw [scheduled, scheduled, work, rest, schedulers, List.map_cons, List.cons_append]
  | notifyWorker found notified =>
      refine ⟨same rfl rfl ?_, rfl, rfl⟩
      rw [ThreadPool.functions_notifyOne notified]
      exact ThreadPool.functions_set found rfl
  | timeout found due => exact ⟨same rfl rfl (ThreadPool.functions_set found rfl), rfl, rfl⟩
  | waits found => exact ⟨same rfl rfl (ThreadPool.functions_set found rfl), rfl, rfl⟩
  | sleeps found => exact ⟨same rfl rfl (ThreadPool.functions_set found rfl), rfl, rfl⟩
  | tick | call | finish | destroy | destroyNotifyAll | destroyNotifySleeper => cases internal

end Pool

section Step

variable [DecidableEq κ] {s t : State κ A} {a : Action κ A}

/-- What a step of a resolver and its threads can do. -/
inductive Moved (opt : Dns.Options) (s : State κ A) : Action κ A → State κ A → Prop
  | tick (elapsed : ℕ) : Moved opt s (.tick elapsed) { s with
      dns := { s.dns with clock := s.dns.clock + elapsed }
      pool := { s.pool with clock := s.pool.clock + elapsed } }
  | resolver {a : Dns.Action κ A} {dns : Dns.State κ A} (free : alone a = true)
      (stepped : Dns.step opt s.dns a = some dns) : Moved opt s (.resolver a) { s with dns }
  | pool {a : ThreadPool.Action ℕ} {pool : ThreadPool.State ℕ} (internal : inside a = true)
      (stepped : ThreadPool.step s.pool a = some pool) : Moved opt s (.pool a) { s with pool }
  | schedules {i it now : ℕ} (found : s.dns.calls[i]? = some (.scheduling it now)) :
      Moved opt s (.scheduleCall i) { s with
        dns := { s.dns with calls := s.dns.calls.set i .done }
        pool := { s.pool with schedulers := s.pool.schedulers ++ [.locking now it] } }
  | enters {k it : ℕ} (runs : s.pool.workers[k]? = some (.running it))
      (idle : s.threads[k]? = some .idle) : Moved opt s (.enter k) { s with
        dns := { s.dns with workers := s.dns.workers ++ [.locking it s.dns.clock] }
        threads := s.threads.set k (.processing s.dns.workers.length) }
  | reschedules {k j it : ℕ} {next : ℤ} (thread : s.threads[k]? = some (.processing j))
      (found : s.dns.workers[j]? = some (.scheduling it next)) : Moved opt s (.schedule k) { s with
        dns := { s.dns with workers := s.dns.workers.set j .done }
        pool := { s.pool with schedulers := s.pool.schedulers ++ [.locking next it] }
        threads := s.threads.set k (.scheduling s.pool.schedulers.length) }
  | returns {k f : ℕ} {thread : Thread} (found : s.threads[k]? = some thread)
      (back : s.returned thread = true) (runs : s.pool.workers[k]? = some (.running f)) :
      Moved opt s (.leave k) { s with
        pool := { s.pool with workers := s.pool.workers.set k .locking }
        threads := s.threads.set k .idle }

theorem moved_of_step (stepped : step opt s a = some t) : Moved opt s a t := by
  cases a with
  | tick elapsed =>
      cases stepped
      exact .tick elapsed
  | resolver a =>
      simp only [step] at stepped
      split at stepped
      · rename_i free
        obtain ⟨dns, moved, rfl⟩ := Option.map_eq_some_iff.mp stepped
        exact .resolver free moved
      · cases stepped
  | pool a =>
      simp only [step] at stepped
      split at stepped
      · rename_i internal
        obtain ⟨pool, moved, rfl⟩ := Option.map_eq_some_iff.mp stepped
        exact .pool internal moved
      · cases stepped
  | scheduleCall i =>
      simp only [step] at stepped
      split at stepped
      · rename_i found
        cases stepped
        exact .schedules found
      · cases stepped
  | enter k =>
      simp only [step] at stepped
      split at stepped
      · rename_i runs idle
        cases stepped
        exact .enters runs idle
      · cases stepped
  | schedule k =>
      simp only [step] at stepped
      split at stepped
      · rename_i thread
        split at stepped
        · rename_i found
          cases stepped
          exact .reschedules thread found
        · cases stepped
      · cases stepped
  | leave k =>
      simp only [step] at stepped
      split at stepped
      · rename_i found
        split at stepped
        · rename_i back
          obtain ⟨pool, finished, rfl⟩ := Option.map_eq_some_iff.mp stepped
          cases ThreadPool.moved_of_step finished with
          | finish runs => exact .returns found back runs
        · cases stepped
      · cases stepped

/-- The pool of a resolver makes no steps but its own. -/
theorem pool_of_moved (moved : Moved opt s a t) :
    t.pool = s.pool ∨ ∃ b, ThreadPool.step s.pool b = some t.pool := by
  cases moved with
  | tick elapsed => exact Or.inr ⟨.tick elapsed, rfl⟩
  | resolver | enters => exact Or.inl rfl
  | @pool b pool internal stepped => exact Or.inr ⟨b, stepped⟩
  | @schedules i it now => exact Or.inr ⟨.call now it, rfl⟩
  | @reschedules k j it next => exact Or.inr ⟨.call next it, rfl⟩
  | @returns k f thread found back runs =>
      refine Or.inr ⟨.finish k, ?_⟩
      simp only [ThreadPool.step, runs]

theorem wired_kept (wired : Wired s) (length : t.pool.workers.length = s.pool.workers.length)
    (moved : Moved opt s a t) : Wired t := by
  have threads : ∀ {k : ℕ} {thread : Thread}, t.threads = s.threads.set k thread →
      t.threads.length = t.pool.workers.length := by
    intro k thread set
    rw [set, List.length_set, length]
    exact wired.length
  have entered : ∀ {k : ℕ} {thread : Thread}, t.threads = s.threads.set k thread →
      s.dns.workers.length ≤ t.dns.workers.length →
      (∀ j, thread = .processing j → j < t.dns.workers.length) →
      ∀ j, .processing j ∈ t.threads → j < t.dns.workers.length := by
    intro k thread set grows new j member
    rw [set] at member
    rcases Threads.mem_set member with same | member
    · exact new j same.symm
    · exact Nat.lt_of_lt_of_le (wired.entered j member) grows
  have called : ∀ {k : ℕ} {thread : Thread}, t.threads = s.threads.set k thread →
      s.pool.schedulers.length ≤ t.pool.schedulers.length →
      (∀ i, thread = .scheduling i → i < t.pool.schedulers.length) →
      ∀ i, .scheduling i ∈ t.threads → i < t.pool.schedulers.length := by
    intro k thread set grows new i member
    rw [set] at member
    rcases Threads.mem_set member with same | member
    · exact new i same.symm
    · exact Nat.lt_of_lt_of_le (wired.called i member) grows
  cases moved with
  | tick elapsed =>
      exact ⟨by simp only [wired.clock], wired.length, wired.busy, wired.jobs, wired.entered,
        wired.called⟩
  | resolver free stepped =>
      obtain ⟨clock, same, workers⟩ := step_alone free stepped
      refine ⟨wired.clock.trans clock.symm, wired.length, wired.busy, ?_, ?_, wired.called⟩
      case refine_2 =>
        rw [same]
        exact wired.entered
      intro j w found going
      obtain ⟨v, before, active⟩ := workers j w found going
      exact wired.jobs j v before active
  | pool internal stepped =>
      obtain ⟨-, clock, schedulers⟩ := step_passed internal stepped
      refine ⟨clock.trans wired.clock, wired.length.trans length.symm, ?_, wired.jobs, wired.entered,
        ?_⟩
      case refine_2 =>
        rw [schedulers]
        exact wired.called
      intro k thread found active
      obtain ⟨f, runs⟩ := wired.busy k thread found active
      exact ⟨f, running_kept internal stepped length runs⟩
  | @schedules i it now found =>
      refine ⟨wired.clock, wired.length, wired.busy, wired.jobs, wired.entered, ?_⟩
      intro i member
      exact Nat.lt_of_lt_of_le (wired.called i member) (by simp)
  | @enters k it runs idle =>
      refine ⟨wired.clock, threads rfl, ?_, ?_, entered rfl (by simp) ?_,
        called rfl (Nat.le_refl _) nofun⟩
      case refine_3 =>
        intro j same
        cases same
        simp
      · intro i thread found active
        by_cases same : k = i
        · subst same
          exact ⟨it, runs⟩
        · rw [List.getElem?_set_ne same] at found
          exact wired.busy i thread found active
      · intro j w found going
        rcases Threads.of_getElem?_snoc found with ⟨-, before⟩ | ⟨rfl, -⟩
        · obtain ⟨i, thread⟩ := wired.jobs j w before going
          refine ⟨i, ?_⟩
          rw [List.getElem?_set_ne, thread]
          rintro rfl
          cases idle.symm.trans thread
        · refine ⟨k, ?_⟩
          exact List.getElem?_set_self (List.getElem?_eq_some_iff.mp idle).1
  | @reschedules k j it next thread found =>
      refine ⟨wired.clock, threads rfl, ?_, ?_, entered rfl (by simp) nofun,
        called rfl (by simp) ?_⟩
      case refine_3 =>
        intro i same
        cases same
        simp
      · intro i other there active
        by_cases same : k = i
        · subst same
          exact wired.busy k _ thread nofun
        · rw [List.getElem?_set_ne same] at there
          exact wired.busy i other there active
      · intro i w after going
        by_cases same : j = i
        · subst same
          rw [List.getElem?_set_self (List.getElem?_eq_some_iff.mp found).1] at after
          cases after
          exact absurd rfl going
        · rw [List.getElem?_set_ne same] at after
          obtain ⟨l, mine⟩ := wired.jobs i w after going
          refine ⟨l, ?_⟩
          rw [List.getElem?_set_ne, mine]
          rintro rfl
          cases thread.symm.trans mine
          exact same rfl
  | @returns k f thread found back runs =>
      refine ⟨wired.clock, threads rfl, ?_, ?_, entered rfl (Nat.le_refl _) nofun,
        called rfl (Nat.le_refl _) nofun⟩
      · intro i other there active
        by_cases same : k = i
        · subst same
          rw [List.getElem?_set_self (List.getElem?_eq_some_iff.mp found).1] at there
          cases there
          exact absurd rfl active
        · rw [List.getElem?_set_ne same] at there ⊢
          exact wired.busy i other there active
      · intro j w after going
        obtain ⟨l, mine⟩ := wired.jobs j w after going
        refine ⟨l, ?_⟩
        rw [List.getElem?_set_ne, mine]
        rintro rfl
        cases found.symm.trans mine
        simp only [State.returned, after] at back
        cases w <;> first | exact going rfl | cases back

/-- A step of a resolver with its threads is one of the resolver, or nothing to it: then it is one of
its threads. -/
inductive Matched (opt : Dns.Options) (t : State κ A) (d : Dns.State κ A) (a : Action κ A) : Prop
  | stays (same : Implements t d) (threads : a.threads = true)
  | moves {b : Dns.Action κ A} {e : Dns.State κ A} (stepped : Dns.step opt d b = some e)
      (next : Implements t e) (inner : a.inner → b.inner)

theorem implements_kept {d : Dns.State κ A} (wired : Wired s) (abstraction : Implements s d)
    (moved : Moved opt s a t) : Matched opt t d a := by
  obtain ⟨same, taken, held⟩ := abstraction
  cases moved with
  | tick elapsed =>
      refine .moves (b := .tick elapsed) rfl ⟨?_, taken, ?_⟩ False.elim
      · rw [same]
      · exact held.of_same (.refl _) (hands_same rfl fun _ => rfl) (Nat.le_add_right _ elapsed)
  | @resolver b dns free stepped =>
      refine .moves (step_scheduled free stepped same) ⟨rfl, taken, ?_⟩ id
      refine held.of_same (.refl _) (hands_same rfl fun _ => rfl) ?_
      exact Nat.le_of_eq (step_alone free stepped).1.symm
  | @pool b pool internal stepped =>
      refine .stays ⟨same, ?_⟩ rfl
      obtain ⟨passed, -⟩ := step_passed internal stepped
      cases passed with
      | nobody left functions =>
          refine ⟨taken, held.of_same left (hands_same rfl fun i => ?_) (Nat.le_refl _)⟩
          exact hand_congr rfl (by rw [functions])
      | @thread k f time w y due left found empty takes workers =>
          have idle : s.threads[k]? = some .idle := by
            have within : k < s.threads.length := by
              rw [wired.length]
              exact (List.getElem?_eq_some_iff.mp found).1
            have thread := List.getElem?_eq_getElem within
            apply Decidable.byContradiction
            intro active
            obtain ⟨g, runs⟩ := wired.busy k _ thread fun idle => active (idle ▸ thread)
            cases runs.symm.trans found
            cases empty
          refine ⟨(time, f) :: taken, held.takes (k := k) left ?_ ?_ (wired.clock ▸ due) rfl⟩
          · rw [hands_getElem?_of idle, hand_idle idle found, empty]
          · have after : pool.workers[k]? = some y := by
              rw [workers]
              exact List.getElem?_set_self (List.getElem?_eq_some_iff.mp found).1
            have took := hand_idle (s := { s with pool }) idle after
            rw [← takes, ← took]
            refine hands_set rfl fun i other => hand_congr rfl ?_
            rw [List.getElem?_map, List.getElem?_map, workers, List.getElem?_set_ne (Ne.symm other)]
  | @schedules i it now found =>
      have found' : d.calls[i]? = some (.scheduling it now) := by
        rw [same]
        exact found
      refine .moves (b := .scheduleCall i)
        (e := { d with tasks := d.tasks ++ [((now : ℤ), it)], calls := d.calls.set i .done }) ?_
        ⟨?_, taken, ?_⟩ id
      · simp only [Dns.step, found']
      · rw [same]
      · exact held.schedules (scheduled_call _ _ _) (hands_same rfl fun _ => rfl) rfl
  | @enters k it runs idle =>
      have mine : s.hands[k]? = some (some it) := by
        rw [hands_getElem?_of idle, hand_idle idle runs]
        rfl
      obtain ⟨i, time, rest, found, due, left⟩ := held.enters (t := { s with
        dns := { s.dns with workers := s.dns.workers ++ [.locking it s.dns.clock] }
        threads := s.threads.set k (.processing s.dns.workers.length) }) mine
        (hands_enter idle rfl rfl (by simp)) rfl rfl
      have due : time ≤ d.clock := by
        rw [same]
        exact due
      refine .moves (b := .start i) (e := { d with
        tasks := d.tasks.eraseIdx i, workers := d.workers ++ [.locking it d.clock] }) ?_
        ⟨?_, rest, left⟩ id
      · simp only [Dns.step, found, due, ↓reduceIte]
      · rw [same]
  | @reschedules k j it next thread found =>
      have found' : d.workers[j]? = some (.scheduling it next) := by
        rw [same]
        exact found
      refine .moves (b := .schedule j)
        (e := { d with tasks := d.tasks ++ [(next, it)], workers := d.workers.set j .done }) ?_
        ⟨?_, taken, ?_⟩ id
      · simp only [Dns.step, found']
      · rw [same]
      · refine held.schedules (scheduled_call _ _ _) (hands_same (List.length_set ..) ?_) rfl
        intro i
        by_cases mine : k = i
        · subst mine
          rw [hand_busy thread (by simp)]
          refine hand_busy (List.getElem?_set_self ?_) (by simp)
          exact (List.getElem?_eq_some_iff.mp thread).1
        · exact hand_congr (List.getElem?_set_ne mine) rfl
  | @returns k f thread found back runs =>
      refine .stays ⟨same, taken, held.of_same (.refl _) (hands_same (List.length_set ..) ?_)
        (Nat.le_refl _)⟩ rfl
      intro i
      by_cases mine : k = i
      · subst mine
        have active : thread ≠ .idle := by
          rintro rfl
          cases back
        rw [hand_busy found active]
        refine hand_idle (w := .locking) (List.getElem?_set_self ?_) (List.getElem?_set_self ?_)
        · exact (List.getElem?_eq_some_iff.mp found).1
        · exact (List.getElem?_eq_some_iff.mp runs).1
      · refine hand_congr (List.getElem?_set_ne mine) ?_
        rw [List.getElem?_map, List.getElem?_map, List.getElem?_set_ne mine]

end Step

section Start

variable {numThreads : ℕ} {s : State κ A}

theorem init_idle (init : Init numThreads s) {k : ℕ} {thread : Thread}
    (found : s.threads[k]? = some thread) : thread = .idle := by
  obtain ⟨clock, rfl⟩ := init
  exact (List.mem_replicate.mp (List.mem_of_getElem? found)).2

theorem init_hand (init : Init numThreads s) (k : ℕ) : s.hand k = none := by
  obtain ⟨clock, rfl⟩ := init
  unfold State.hand
  split
  · rename_i idle
    have inside : k < numThreads := by simpa using (List.getElem?_eq_some_iff.mp idle).1
    simp [inside, Worker.function]
  · rfl

theorem init_implements (init : Init numThreads s) : ∃ d, Dns.Init d ∧ Implements s d := by
  have empty : s.hands.reduceOption = [] := by
    apply List.reduceOption_eq_nil_iff _ |>.mpr
    refine ⟨s.threads.length, List.eq_replicate_iff.mpr ⟨by simp [State.hands], ?_⟩⟩
    intro hand member
    obtain ⟨k, -, rfl⟩ := List.mem_map.mp member
    exact init_hand init k
  obtain ⟨clock, rfl⟩ := init
  refine ⟨{ clock }, ⟨clock, rfl⟩, rfl, [], ?_, ?_, nofun⟩
  · simp [scheduled]
  · rw [empty]
    exact .refl _

theorem init_wired (init : Init numThreads s) : Wired s := by
  have idle : ∀ (k : ℕ) (thread : Thread), s.threads[k]? = some thread → thread = .idle :=
    fun _ _ => init_idle init
  have none : ∀ thread ∈ s.threads, thread = .idle := by
    intro thread member
    obtain ⟨k, found⟩ := List.mem_iff_getElem?.mp member
    exact idle k thread found
  refine ⟨?_, ?_, fun k thread found active => absurd (idle k thread found) active, ?_, ?_, ?_⟩
  · obtain ⟨clock, rfl⟩ := init
    rfl
  · obtain ⟨clock, rfl⟩ := init
    simp
  · obtain ⟨clock, rfl⟩ := init
    intro j w found
    cases found
  · exact fun j member => Thread.noConfusion (none _ member)
  · exact fun i member => Thread.noConfusion (none _ member)

end Start

section Reachable

variable [DecidableEq κ] {numThreads : ℕ} {s : State κ A}

theorem Reachable.pool (reach : Reachable opt numThreads s) :
    ThreadPool.Reachable numThreads s.pool := by
  induction reach with
  | start initial =>
      obtain ⟨clock, rfl⟩ := initial
      exact .start ⟨clock, rfl⟩
  | move before moved ih =>
      obtain ⟨a, -, stepped⟩ := moved
      rcases pool_of_moved (moved_of_step stepped) with same | ⟨b, moved⟩
      · rw [same]
        exact ih
      · exact .move ih ⟨b, trivial, moved⟩

theorem Reachable.wired (reach : Reachable opt numThreads s) : Wired s := by
  induction reach with
  | start initial => exact init_wired initial
  | move before moved ih =>
      have threads := (ThreadPool.reachable_inv (Reachable.pool before)).threads
      have after := (ThreadPool.reachable_inv (Reachable.pool (.move before moved))).threads
      obtain ⟨a, -, stepped⟩ := moved
      exact wired_kept ih (after.trans threads.symm) (moved_of_step stepped)

theorem simulates : Runs.Simulates (Init numThreads) (Runs.Moves (step opt) Runs.always) Dns.Init
    (Runs.Moves (Dns.step opt) Runs.always) (Implements (κ := κ) (A := A)) := by
  constructor
  · exact fun s initial => init_implements initial
  · rintro s d t reach - abstraction ⟨a, -, stepped⟩
    cases implements_kept (Reachable.wired reach) abstraction (moved_of_step stepped) with
    | stays same => exact Or.inl same
    | moves stepped next => exact Or.inr ⟨_, ⟨_, trivial, stepped⟩, next⟩

/-- A resolver with `num_dns_resolution_threads` threads does what a resolver does whose tasks are in
a list: whatever the threads do, each task is in the queue of the pool, on its way there, or in the
hands of one thread that has taken it when it was due. -/
theorem refines (reach : Reachable opt numThreads s) :
    ThreadPool.Reachable numThreads s.pool ∧
      ∃ d taken, Dns.Reachable opt d ∧ d = { s.dns with tasks := d.tasks } ∧
        Tasks s d.tasks taken := by
  obtain ⟨d, abstraction, same, taken, held⟩ := simulates.reachable reach
  exact ⟨reach.pool, d, taken, abstraction, same, held⟩

end Reachable

/-- Of two threads one has taken a function, and another function is in the queue. -/
def takenOne : State ℕ ℕ where
  dns := {
    clock := 5
    nodes := [{ key := [1], data := { callbacks := [0] } },
      { key := [2], data := { callbacks := [1] } }]
    calls := [.done, .done]
    issued := [0, 1] }
  pool := {
    clock := 5
    lastIdx := 2
    work := [⟨5, 2, 1⟩]
    workers := [.notifying 0, .locking]
    schedulers := [.done, .done] }
  threads := [.idle, .idle]

theorem takenOne_reachable : Reachable ⟨1, 1, 1⟩ 2 takenOne :=
  Runs.replay_reachable
    [.resolver (.call [1] 0), .resolver (.call [2] 1), .resolver (.lockCall 0), .scheduleCall 0,
      .resolver (.lockCall 1), .scheduleCall 1, .pool (.lockScheduler 0),
      .pool (.notifyScheduler 0 none), .pool (.lockScheduler 1), .pool (.lockWorker 0)]
    (.start ⟨5, rfl⟩) rfl

theorem refines_takenOne : ∃ d : Dns.State ℕ ℕ, Dns.Reachable ⟨1, 1, 1⟩ d ∧
    (d.tasks.map Prod.snd).Perm [1, 0] := by
  obtain ⟨-, d, taken, reach, -, held⟩ := refines takenOne_reachable
  refine ⟨d, reach, (held.places.map Prod.snd).trans ?_⟩
  rw [List.map_append]
  exact held.held.append_left [1]

end Hcproxy.Resolver
