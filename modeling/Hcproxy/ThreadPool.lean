import Hcproxy.Lib.Runs
import Hcproxy.Lib.Threads
import Mathlib.Data.Int.Notation
import Mathlib.Data.Nat.Notation

set_option autoImplicit false

namespace Hcproxy.ThreadPool

/-- An element of `work_`; `f` is the scheduled function, about which the pool knows nothing.
Times are in nanoseconds since the epoch of `steady_clock`, whose readings are not before it. -/
structure Work (F : Type) where
  t : ℤ
  idx : ℕ
  f : F

variable {F : Type}

/-- `operator<`: of two elements the one that is due later is the smaller. -/
def Work.lt (this w : Work F) : Bool := w.t < this.t || (w.t == this.t && w.idx < this.idx)

/-- `std::priority_queue::push`, for a queue that is kept with its maximum at the head. -/
def push (w : Work F) : List (Work F) → List (Work F)
  | [] => [w]
  | v :: rest => if v.lt w then w :: v :: rest else v :: push w rest

/-- The two condition variables. -/
inductive CondVar
  | cv
  | sleeperCv
  deriving DecidableEq

/-- Where a thread of `threads_` is. Between two of these places it holds `mutex_`. -/
inductive Worker (F : Type)
  | locking                       -- entered `Next`, does not hold `mutex_` yet
  | waiting                       -- blocked in `cv_.wait`
  | woken                         -- leaves `cv_.wait`, does not hold `mutex_` yet
  | sleeping (deadline : ℤ)       -- blocked in `sleeper_cv_.wait_until`
  | sleeperWoken                  -- leaves `wait_until`, does not hold `mutex_` yet
  | notifying (f : F)             -- took `f`, is about to call `cv_.notify_one`
  | running (f : F)
  | checkFailed                   -- `CHECK(have_sleeper_)` failed
  | exited                        -- left `Loop`

/-- A call of `Schedule`, made by any thread. -/
inductive Scheduler (F : Type)
  | locking (t : ℤ) (f : F)
  | notifying (wake : CondVar)
  | done

/-- Where the destructor is. -/
inductive Destructor
  | notStarted
  | notifyingAll
  | notifyingSleeper
  | joining
  deriving DecidableEq

structure State (F : Type) where
  clock : ℕ
  lastIdx : ℕ := 0
  exit : Bool := false
  haveSleeper : Bool := false
  work : List (Work F) := []
  workers : List (Worker F)
  schedulers : List (Scheduler F) := []
  destructor : Destructor := .notStarted

/-- The locked part of `Schedule`. -/
def schedule (s : State F) (t : ℤ) (f : F) : Scheduler F × State F :=
  let idx := s.lastIdx + 1
  let work := push ⟨t, idx, f⟩ s.work
  let wake := if s.haveSleeper then CondVar.sleeperCv else CondVar.cv
  let after := if work.head?.any (·.idx == idx) then .notifying wake else .done
  (after, { s with lastIdx := idx, work })

/-- One pass of the `while (true)` of `Next`, from holding `mutex_` to giving it up. -/
def next (s : State F) : Worker F × State F :=
  if s.exit then (.exited, s)
  else match s.work with
    | [] => (.waiting, s)
    | top :: rest =>
      if top.t ≤ s.clock then
        let after := if !rest.isEmpty && !s.haveSleeper then .notifying top.f else .running top.f
        (after, { s with work := rest })
      else if s.haveSleeper then (.waiting, s)
      else (.sleeping top.t, { s with haveSleeper := true })

/-- What follows `sleeper_cv_.wait_until` once `mutex_` is held again. -/
def wakeSleeper (s : State F) : Worker F × State F :=
  if s.haveSleeper then next { s with haveSleeper := false } else (.checkFailed, s)

/-- The place a worker goes to when it acquires `mutex_`, if it wants to. -/
def acquire (s : State F) : Worker F → Option (Worker F × State F)
  | .locking => some (next s)
  | .woken => some (next s)
  | .sleeperWoken => some (wakeSleeper s)
  | _ => none

def Worker.isSleeping : Worker F → Bool
  | .sleeping _ => true
  | _ => false

/-- The thread blocked on the condition variable goes on to re-acquire `mutex_`. -/
def Worker.wake : CondVar → Worker F → Option (Worker F)
  | .cv, .waiting => some .woken
  | .sleeperCv, .sleeping _ => some .sleeperWoken
  | _, _ => none

/-- `notify_one`: wakes one blocked thread, the `target`, and none only if none is blocked. -/
def notifyOne (wake : CondVar) (target : Option ℕ) (workers : List (Worker F)) :
    Option (List (Worker F)) :=
  match target with
  | some j => (workers[j]?.bind (Worker.wake wake)).map fun w => workers.set j w
  | none => if workers.all fun w => (w.wake wake).isNone then some workers else none

/-- `cv_.notify_all`. -/
def notifyAll (workers : List (Worker F)) : List (Worker F) :=
  workers.map fun w => (w.wake .cv).getD w

inductive Action (F : Type)
  | tick (elapsed : ℕ)
  | call (t : ℤ) (f : F)                       -- a thread calls `Schedule(t, f)`
  | lockScheduler (i : ℕ)
  | notifyScheduler (i : ℕ) (target : Option ℕ)
  | lockWorker (j : ℕ)
  | notifyWorker (j : ℕ) (target : Option ℕ)
  | timeout (j : ℕ)                               -- `wait_until` reaches its deadline
  | spurious (j : ℕ)                              -- a wait returns for no reason
  | finish (j : ℕ)                                -- the function being run returns
  | destroy
  | destroyNotifyAll
  | destroyNotifySleeper (target : Option ℕ)

def step (s : State F) : Action F → Option (State F)
  | .tick elapsed => some { s with clock := s.clock + elapsed }
  | .call t f => some { s with schedulers := s.schedulers ++ [.locking t f] }
  | .lockScheduler i =>
    match s.schedulers[i]? with
    | some (.locking t f) =>
      let (after, s') := schedule s t f
      some { s' with schedulers := s.schedulers.set i after }
    | _ => none
  | .notifyScheduler i target =>
    match s.schedulers[i]? with
    | some (.notifying wake) =>
      (notifyOne wake target s.workers).map fun workers =>
        { s with workers, schedulers := s.schedulers.set i .done }
    | _ => none
  | .lockWorker j =>
    match s.workers[j]?.bind (acquire s) with
    | some (after, s') => some { s' with workers := s.workers.set j after }
    | none => none
  | .notifyWorker j target =>
    match s.workers[j]? with
    | some (.notifying f) =>
      notifyOne .cv target (s.workers.set j (.running f)) |>.map fun workers => { s with workers }
    | _ => none
  | .timeout j =>
    match s.workers[j]? with
    | some (.sleeping deadline) =>
      if deadline ≤ s.clock then some { s with workers := s.workers.set j .sleeperWoken } else none
    | _ => none
  | .spurious j =>
    match s.workers[j]? with
    | some .waiting => some { s with workers := s.workers.set j .woken }
    | some (.sleeping _) => some { s with workers := s.workers.set j .sleeperWoken }
    | _ => none
  | .finish j =>
    match s.workers[j]? with
    | some (.running _) => some { s with workers := s.workers.set j .locking }
    | _ => none
  | .destroy =>
    if s.destructor = .notStarted then some { s with exit := true, destructor := .notifyingAll }
    else none
  | .destroyNotifyAll =>
    if s.destructor = .notifyingAll then
      some { s with workers := notifyAll s.workers, destructor := .notifyingSleeper }
    else none
  | .destroyNotifySleeper target =>
    if s.destructor = .notifyingSleeper then
      (notifyOne .sleeperCv target s.workers).map fun workers =>
        { s with workers, destructor := .joining }
    else none

/-- A pool that has just started its `num_threads` threads, at any reading of the clock. -/
def Init (numThreads : ℕ) (s : State F) : Prop :=
  ∃ clock, s = { clock, workers := List.replicate numThreads .locking }

/-- The states of a pool of `num_threads` threads, over every interleaving. -/
def Reachable (numThreads : ℕ) : State F → Prop :=
  Runs.Reachable (Init numThreads) (Runs.Moves step Runs.always)

end Hcproxy.ThreadPool
