import Hcproxy.Dns
import Hcproxy.ThreadPool

set_option autoImplicit false

namespace Hcproxy.Resolver

/-- Where a thread of `threads_` is in the function that it runs. -/
inductive Thread
  | idle                       -- runs none, or has not entered `ProcessCacheEntry` yet
  | processing (j : ℕ)         -- in the execution `j` of `ProcessCacheEntry`
  | scheduling (i : ℕ)         -- in the call of `Schedule` at its end
  deriving DecidableEq

/-- A `DnsResolver` with its `threads_`. The functions of the pool are `ProcessCacheEntry(it)`, for
the iterator `it`. What is scheduled is in the pool, so `tasks` of `dns` stays empty. -/
structure State (κ A : Type) where
  dns : Dns.State κ A
  pool : ThreadPool.State ℕ
  threads : List Thread

inductive Action (κ A : Type)
  | tick (elapsed : ℕ)
  | resolver (a : Dns.Action κ A)
  | pool (a : ThreadPool.Action ℕ)
  | scheduleCall (i : ℕ)       -- the call `i` of `Resolve` calls `Schedule`
  | enter (k : ℕ)              -- the thread `k` enters `ProcessCacheEntry`
  | schedule (k : ℕ)           -- and calls `Schedule`
  | leave (k : ℕ)              -- and returns

variable {κ A : Type}

/-- The steps that a resolver makes without its threads. -/
def alone : Dns.Action κ A → Bool
  | .tick _ | .scheduleCall _ | .start _ | .schedule _ => false
  | _ => true

/-- The steps that a pool makes by itself. A resolver is never destroyed. -/
def inside : ThreadPool.Action ℕ → Bool
  | .lockScheduler _ | .notifyScheduler _ _ | .lockWorker _ | .notifyWorker _ _ | .timeout _
  | .spurious _ => true
  | _ => false

/-- Whether `ProcessCacheEntry` has returned: at once where it has erased the entry, else when
`Schedule` has. -/
def State.returned (s : State κ A) : Thread → Bool
  | .idle => false
  | .processing j =>
    match s.dns.workers[j]? with
    | some .done => true
    | _ => false
  | .scheduling i =>
    match s.pool.schedulers[i]? with
    | some .done => true
    | _ => false

variable [DecidableEq κ]

def step (opt : Dns.Options) (s : State κ A) : Action κ A → Option (State κ A)
  | .tick elapsed =>
    some { s with
      dns := { s.dns with clock := s.dns.clock + elapsed }
      pool := { s.pool with clock := s.pool.clock + elapsed } }
  | .resolver a =>
    if alone a then (Dns.step opt s.dns a).map fun dns => { s with dns } else none
  | .pool a =>
    if inside a then (ThreadPool.step s.pool a).map fun pool => { s with pool } else none
  | .scheduleCall i =>
    match s.dns.calls[i]? with
    | some (.scheduling it now) =>
      (ThreadPool.step s.pool (.call now it)).map fun pool => { s with
        dns := { s.dns with calls := s.dns.calls.set i .done }, pool }
    | _ => none
  | .enter k =>
    match s.pool.workers[k]?, s.threads[k]? with
    | some (.running it), some .idle => some { s with
        dns := { s.dns with workers := s.dns.workers ++ [.locking it s.dns.clock] }
        threads := s.threads.set k (.processing s.dns.workers.length) }
    | _, _ => none
  | .schedule k =>
    match s.threads[k]? with
    | some (.processing j) =>
      match s.dns.workers[j]? with
      | some (.scheduling it next) =>
        (ThreadPool.step s.pool (.call next it)).map fun pool => { s with
          dns := { s.dns with workers := s.dns.workers.set j .done }
          pool
          threads := s.threads.set k (.scheduling s.pool.schedulers.length) }
      | _ => none
    | _ => none
  | .leave k =>
    match s.threads[k]? with
    | some thread =>
      if s.returned thread then
        (ThreadPool.step s.pool (.finish k)).map fun pool =>
          { s with pool, threads := s.threads.set k .idle }
      else none
    | none => none

/-- A resolver that has just been constructed, with `numThreads` threads. -/
def Init (numThreads : ℕ) (s : State κ A) : Prop :=
  ∃ clock, s = {
    dns := { clock }
    pool := { clock, workers := List.replicate numThreads .locking }
    threads := List.replicate numThreads .idle }

/-- The states of a resolver and its threads, over every interleaving. -/
def Reachable (opt : Dns.Options) (numThreads : ℕ) : State κ A → Prop :=
  Runs.Reachable (Init numThreads) (Runs.Moves (step opt) Runs.always)

end Hcproxy.Resolver
