import Hcproxy.Clock
import Hcproxy.Lib.Ring
import Hcproxy.Lib.Runs
import Hcproxy.Lib.Threads

set_option autoImplicit false

namespace Hcproxy.Dns

open Ring (Cursor)

abbrev HostPort := List UInt8

/-- Nothing checks the durations. -/
structure Options where
  dns_cache_ttl : Duration
  dns_cache_refresh_period : Duration
  dns_cache_refresh_duration : Duration

/-- `κ` are the callbacks and `A` the addresses of `getaddrinfo`. A pointer into the ring that
`ResolveSync` makes of its result is a cursor. The times are readings of `steady_clock`, and a
default-constructed one is at its epoch. -/
structure CacheData (κ A : Type) where
  callbacks : List κ := []
  addr : Option (Cursor A) := none
  used_at : ℕ := 0
  resolved_at : ℕ := 0
  successfully_resolved_at : ℕ := 0
  use_count : ℕ := 0

variable {κ A : Type}

/-- What `Advance(p)` leaves in `p`; it returns what was there. -/
def advance (p : Option (Cursor A)) : Option (Cursor A) := p.map Cursor.next

def CacheData.use (c : CacheData κ A) (now : ℕ) : CacheData κ A :=
  { c with use_count := c.use_count + 1, addr := advance c.addr, used_at := max c.used_at now }

/-- `for (int64_t i = 0; c.use_count; ++i)`, from `i` on. `p` is `c.addr` and `addr` the result of
the lookup: both point into the ring that has just been made, so only positions are compared.
Each pass takes at least one from `use_count`, which bounds the number of passes. -/
def rotate (addr : Cursor A) : (fuel i use_count : ℕ) → Cursor A → ℕ × Cursor A
  | 0, _, use_count, p => (use_count, p)
  | fuel + 1, i, use_count, p =>
    if use_count = 0 then (use_count, p)
    else
      let left := use_count - 1
      let p := p.next
      rotate addr fuel (i + 1) (if p.pos = addr.pos then left % (i + 1) else left) p

/-- What `ProcessCacheEntry` records once `ResolveSync` has returned and the clock was read. -/
def CacheData.record (c : CacheData κ A) (addr : Option (Cursor A)) (now : ℕ) : CacheData κ A :=
  match addr with
  | none => { c with resolved_at := now }
  | some addr =>
    let (use_count, p) := rotate addr c.use_count 0 c.use_count addr
    { c with resolved_at := now, successfully_resolved_at := now, use_count, addr := some p }

/-- When the entry is to be processed again. -/
def CacheData.next (opt : Options) (c : CacheData κ A) : ℤ :=
  min (Clock.add c.resolved_at opt.dns_cache_refresh_period)
    (Clock.add c.used_at opt.dns_cache_refresh_duration)

/-- One call of `ResolveSync` for an entry: when it returned and with what, and, once its result
has been recorded, the reading of the clock that went with it and the number of answers given
from the entry until then. This is history: no step depends on it. -/
structure Lookup (A : Type) where
  finished : ℕ
  result : Option (Cursor A)
  recorded : Option ℕ := none
  uses : ℕ := 0

/-- A node of the map `cache_`. It stays in the list of nodes after `erase`, no longer `present`;
an iterator is the index of the node. `lookups` and `uses` are history. -/
structure Node (κ A : Type) where
  key : HostPort
  data : CacheData κ A
  present : Bool := true
  lookups : List (Lookup A) := []
  uses : ℕ := 0

/-- A call of a callback, due or made. All but `cb` and `addr` is history: the entry, the number
of answers given from it before this one, the reading `now` that the answer was picked with, and
the lookups of the entry that had returned by then. -/
structure Answer (κ A : Type) where
  cb : κ
  addr : Option (Cursor A)
  node : ℕ
  index : ℕ
  now : ℕ
  seen : List (Lookup A)

/-- A call of `Resolve`, on any thread. -/
inductive Call (κ A : Type)
  | locking (host_port : HostPort) (cb : κ) (now : ℕ)
  | scheduling (it : ℕ) (now : ℕ)
  | calling (answer : Answer κ A)
  | done

/-- An execution of `ProcessCacheEntry(it)` on a thread of `threads_`. -/
inductive Worker (κ A : Type)
  | locking (it now : ℕ)
  | resolving (it : ℕ)
  | resolved (it : ℕ) (lookup : ℕ) (addr : Option (Cursor A))
  | recording (it : ℕ) (lookup : ℕ) (addr : Option (Cursor A)) (now : ℕ)
  | calling (it : ℕ) (callbacks : List κ) (addr : Option (Cursor A))
      (index now : ℕ) (seen : List (Lookup A))
  | scheduling (it : ℕ) (next : ℤ)
  | done
  | dangling                       -- used its iterator after `erase`

structure State (κ A : Type) where
  clock : ℕ
  nodes : List (Node κ A) := []
  tasks : List (ℤ × ℕ) := []       -- what `threads_` has scheduled: the time and the iterator
  calls : List (Call κ A) := []
  workers : List (Worker κ A) := []
  issued : List κ := []            -- history: the callbacks passed to `Resolve`
  answers : List (Answer κ A) := []  -- history: the calls of callbacks made

/-- `cache_.find(host_port)`. -/
def State.find (s : State κ A) (host_port : HostPort) : Option ℕ :=
  s.nodes.findIdx? fun n => n.present && n.key == host_port

/-- The node an iterator points to, unless it has been erased. -/
def State.node (s : State κ A) (it : ℕ) : Option (Node κ A) :=
  s.nodes[it]?.filter (·.present)

/-- The locked part of `Resolve`. -/
def resolve (opt : Options) (s : State κ A) (host_port : HostPort) (cb : κ) (now : ℕ) :
    Call κ A × List (Node κ A) :=
  match s.find host_port with
  | none =>
    (.scheduling s.nodes.length now,
      s.nodes ++ [{ key := host_port, data := { callbacks := [cb] } }])
  | some it =>
    match s.nodes[it]? with
    | none => (.done, s.nodes)
    | some n =>
      if n.data.callbacks ≠ [] then
        (.done, s.nodes.set it
          { n with data := { n.data with callbacks := n.data.callbacks ++ [cb] } })
      else
        let addr := if now < Clock.add n.data.successfully_resolved_at opt.dns_cache_ttl
          then n.data.addr else none
        (.calling ⟨cb, addr, it, n.uses, now, n.lookups⟩,
          s.nodes.set it { n with data := n.data.use now, uses := n.uses + 1 })

/-- The part of `ProcessCacheEntry` from `if (!c.callbacks.empty())` to giving up the lock. -/
def drain (opt : Options) (it : ℕ) (n : Node κ A) (now : ℕ) : Worker κ A × Node κ A :=
  if n.data.callbacks = [] then (.scheduling it (n.data.next opt), n)
  else
    let callbacks := n.data.callbacks
    let data := (CacheData.use · now)^[callbacks.length] { n.data with callbacks := [] }
    (.calling it callbacks n.data.addr n.uses now n.lookups,
      { n with data, uses := n.uses + callbacks.length })

/-- `ProcessCacheEntry` from taking the lock for the first time. -/
def process (opt : Options) (it : ℕ) (n : Node κ A) (now : ℕ) : Worker κ A × Node κ A :=
  if n.data.callbacks = [] ∧ Clock.add n.data.used_at opt.dns_cache_refresh_duration ≤ now then
    (.done, { n with present := false })
  else if Clock.add n.data.resolved_at opt.dns_cache_refresh_period ≤ now then (.resolving it, n)
  else drain opt it n now

/-- The history of the lookups once one of them has been recorded. -/
def recordLookup (lookups : List (Lookup A)) (lookup now uses : ℕ) : List (Lookup A) :=
  lookups.modify lookup fun l => { l with recorded := some now, uses }

/-- `ProcessCacheEntry` from taking the lock again after `ResolveSync`. -/
def record (opt : Options) (it : ℕ) (n : Node κ A) (lookup : ℕ) (addr : Option (Cursor A))
    (now : ℕ) : Worker κ A × Node κ A :=
  drain opt it
    { n with
      data := n.data.record addr now
      lookups := recordLookup n.lookups lookup now n.uses } now

inductive Action (κ A : Type)
  | tick (elapsed : ℕ)
  | call (host_port : HostPort) (cb : κ)        -- a thread calls `Resolve` and reads the clock
  | lockCall (i : ℕ)
  | scheduleCall (i : ℕ)
  | answerCall (i : ℕ)
  | start (k : ℕ)                               -- a thread takes a task and reads the clock
  | lockWorker (j : ℕ)
  | returnResolve (j : ℕ) (addr : Option { items : List A // items ≠ [] })
  | readClock (j : ℕ)
  | lockRecord (j : ℕ)
  | callback (j : ℕ)
  | relock (j : ℕ)
  | schedule (j : ℕ)

variable [DecidableEq κ]

def step (opt : Options) (s : State κ A) : Action κ A → Option (State κ A)
  | .tick elapsed => some { s with clock := s.clock + elapsed }
  | .call host_port cb =>
    -- Each call of `Resolve` has a callback of its own.
    if cb ∈ s.issued then none
    else some { s with
      calls := s.calls ++ [.locking host_port cb s.clock], issued := s.issued ++ [cb] }
  | .lockCall i =>
    match s.calls[i]? with
    | some (.locking host_port cb now) =>
      let (after, nodes) := resolve opt s host_port cb now
      some { s with nodes, calls := s.calls.set i after }
    | _ => none
  | .scheduleCall i =>
    match s.calls[i]? with
    | some (.scheduling it now) =>
      some { s with tasks := s.tasks ++ [((now : ℤ), it)], calls := s.calls.set i .done }
    | _ => none
  | .answerCall i =>
    match s.calls[i]? with
    | some (.calling answer) =>
      some { s with answers := s.answers ++ [answer], calls := s.calls.set i .done }
    | _ => none
  | .start k =>
    match s.tasks[k]? with
    | some (t, it) =>
      if t ≤ s.clock then
        some { s with
          tasks := s.tasks.eraseIdx k, workers := s.workers ++ [.locking it s.clock] }
      else none
    | none => none
  | .lockWorker j =>
    match s.workers[j]? with
    | some (.locking it now) =>
      match s.node it with
      | some n =>
        let (after, n) := process opt it n now
        some { s with nodes := s.nodes.set it n, workers := s.workers.set j after }
      | none => some { s with workers := s.workers.set j .dangling }
    | _ => none
  | .returnResolve j addr =>
    match s.workers[j]? with
    | some (.resolving it) =>
      match s.node it with
      | some n =>
        let addr := addr.map fun items => Cursor.head items.1 items.2
        some { s with
          nodes := s.nodes.set it { n with lookups := n.lookups ++ [⟨s.clock, addr, none, 0⟩] }
          workers := s.workers.set j (.resolved it n.lookups.length addr) }
      | none => some { s with workers := s.workers.set j .dangling }
    | _ => none
  | .readClock j =>
    match s.workers[j]? with
    | some (.resolved it lookup addr) =>
      some { s with workers := s.workers.set j (.recording it lookup addr s.clock) }
    | _ => none
  | .lockRecord j =>
    match s.workers[j]? with
    | some (.recording it lookup addr now) =>
      match s.node it with
      | some n =>
        let (after, n) := record opt it n lookup addr now
        some { s with nodes := s.nodes.set it n, workers := s.workers.set j after }
      | none => some { s with workers := s.workers.set j .dangling }
    | _ => none
  | .callback j =>
    match s.workers[j]? with
    | some (.calling it (cb :: rest) addr index now seen) =>
      some { s with
        answers := s.answers ++ [⟨cb, addr, it, index, now, seen⟩]
        workers := s.workers.set j (.calling it rest (advance addr) (index + 1) now seen) }
    | _ => none
  | .relock j =>
    match s.workers[j]? with
    | some (.calling it [] _ _ _ _) =>
      match s.node it with
      | some n => some { s with workers := s.workers.set j (.scheduling it (n.data.next opt)) }
      | none => some { s with workers := s.workers.set j .dangling }
    | _ => none
  | .schedule j =>
    match s.workers[j]? with
    | some (.scheduling it next) =>
      some { s with tasks := s.tasks ++ [(next, it)], workers := s.workers.set j .done }
    | _ => none

/-- A resolver that has just been constructed, at any reading of the clock. -/
def Init (s : State κ A) : Prop := ∃ clock, s = { clock }

/-- The states of a resolver whose steps are all `allowed`, over every interleaving. -/
def ReachableIf (opt : Options) (allowed : State κ A → Action κ A → Prop) : State κ A → Prop :=
  Runs.Reachable Init (Runs.Moves (step opt) allowed)

/-- The states of a resolver, over every interleaving. -/
def Reachable (opt : Options) : State κ A → Prop := ReachableIf opt Runs.always

end Hcproxy.Dns
