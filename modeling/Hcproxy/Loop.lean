import Mathlib.Logic.Function.Basic
import Hcproxy.Bits
import Hcproxy.Lib.Linked
import Hcproxy.Lib.Runs

set_option autoImplicit false

namespace Hcproxy.Loop

open Linked (Memory Chain)

abbrev Addr := ℕ

abbrev Fd := ℕ

/-- An `EventHandler`, without the links of its `Node`. The last three fields are history: which
object this is, the references that handlers and scheduled functions have taken themselves, and
whether it has ever been referenced. -/
structure Handler where
  fd : Fd
  deadline : ℕ := 0
  event_loop : Bool := false
  ref_count : ℕ := 0
  serial : ℕ
  held : ℕ := 0
  used : Bool := false

/-- What the kernel has for an fd. `data` is null for the pipe; `owner` is the object that was
registered, which is history. -/
structure Interest where
  fd : Fd
  events : Events
  data : Option Addr
  owner : Option ℕ
  deriving DecidableEq

/-- An event that `epoll_wait` has reported. -/
structure Event where
  events : Events
  data : Option Addr
  owner : Option ℕ

/-- `size` is `events_.size()`, and `interest` is in the kernel. -/
structure EPoll where
  interest : List Interest
  total_events : ℕ := 1
  size : ℕ := 0

def EPoll.fds (p : EPoll) : List Fd := p.interest.map Interest.fd

/-- `EPoll::Add`. Like the next two it is `none` where `epoll_ctl` fails. -/
def EPoll.add (p : EPoll) (entry : Interest) : Option EPoll :=
  if entry.fd ∈ p.fds then none
  else some { p with interest := p.interest ++ [entry], total_events := p.total_events + 1 }

def EPoll.remove (p : EPoll) (fd : Fd) : Option EPoll :=
  if fd ∈ p.fds then
    some { p with
      interest := p.interest.filter (·.fd ≠ fd), total_events := p.total_events - 1 }
  else none

def EPoll.modify (p : EPoll) (entry : Interest) : Option EPoll :=
  if entry.fd ∈ p.fds then
    some { p with interest := p.interest.map fun e => if e.fd = entry.fd then entry else e }
  else none

/-- The kernel forgets an fd that is closed. -/
def EPoll.close (p : EPoll) (fd : Fd) : EPoll :=
  { p with interest := p.interest.filter (·.fd ≠ fd) }

/-- Why the loop cannot go on. -/
inductive Stop
  | check                -- a `CHECK` that has nothing to do with the kernel
  | epollCtl             -- `epoll_ctl` or `epoll_wait` fails
  | freed                -- a handler is used after it was deleted
  deriving DecidableEq

/-- Where `Loop` is. In `handling`, `running` and `timingOut` it is inside `OnEvent`, a scheduled
function and `OnTimeout`. -/
inductive Phase
  | waiting
  | polling (since : ℕ)
  | dispatching (todo : List Event)
  | handling (eh : Addr) (todo : List Event)
  | running (todo : List Event)
  | expiring
  | timingOut (eh : Addr)
  | stopped (why : Stop)

/-- What became of a deadline. -/
inductive Outcome
  | pending
  | withdrawn (time : ℕ)          -- the handler was refreshed or removed
  | fired (time : ℕ)              -- `OnTimeout` was called
  deriving DecidableEq

/-- A deadline that a handler was given. -/
structure Promise where
  serial : ℕ
  deadline : ℕ
  outcome : Outcome := .pending
  deriving DecidableEq

/-- A call of `OnEvent` or `OnTimeout`: the object, whether it was registered, and the object
that the event was registered for. -/
structure Call where
  serial : ℕ
  registered : Bool
  owner : Option ℕ
  deriving DecidableEq

/-- A handler that was deleted, as its destructor found it. -/
structure Grave where
  serial : ℕ
  ref_count : ℕ
  event_loop : Bool
  deriving DecidableEq

/-- The loop and its handlers. A handler is its `Node` in `nodes` and the rest in `heap`. The
fields from `reading` on are history: the last reading of the clock, the number of handlers
constructed, and what became of handlers and deadlines. -/
structure State where
  clock : ℕ
  heap : Addr → Option Handler := fun _ => none
  nodes : Memory Addr := fun _ => none
  expire : Chain Addr := {}
  epoll : EPoll
  phase : Phase := .waiting
  reading : ℕ
  serials : ℕ := 0
  calls : List Call := []
  graves : List Grave := []
  promises : List Promise := []

/-- A deadline is settled once. -/
def settle (promises : List Promise) (serial : ℕ) (outcome : Outcome) : List Promise :=
  promises.map fun p =>
    if p.serial = serial ∧ p.outcome = .pending then { p with outcome } else p

/-- References that are taken or given back by a handler or a scheduled function itself. -/
def State.hold (s : State) (a : Addr) (f : ℕ → ℕ) : State :=
  { s with heap := Function.update s.heap a ((s.heap a).map fun h => { h with held := f h.held }) }

def State.put (s : State) (a : Addr) (h : Handler) : State :=
  { s with heap := Function.update s.heap a (some h) }

/-- `delete this`. -/
def State.delete (s : State) (a : Addr) (h : Handler) : Except Stop State :=
  if h.event_loop = false ∧ h.ref_count = 0 then
    .ok { s with
      heap := Function.update s.heap a none
      nodes := Function.update s.nodes a none
      graves := s.graves ++ [⟨h.serial, h.ref_count, h.event_loop⟩] }
  else .error .check

def State.incRef (s : State) (a : Addr) : Except Stop State :=
  match s.heap a with
  | none => .error .freed
  | some h => .ok (s.put a { h with ref_count := h.ref_count + 1, used := true })

def State.decRef (s : State) (a : Addr) : Except Stop State :=
  match s.heap a with
  | none => .error .freed
  | some h =>
    if h.ref_count = 0 then .error .check
    else if h.ref_count = 1 then s.delete a { h with ref_count := 0 }
    else .ok (s.put a { h with ref_count := h.ref_count - 1 })

variable (timeout : ℕ)

def State.add (s : State) (a : Addr) (events : Events) : Except Stop State :=
  match s.heap a with
  | none => .error .freed
  | some h =>
    if h.event_loop then .error .check
    else
      let deadline := s.clock + timeout
      match Linked.addTail s.nodes s.expire a with
      | none => .error .check
      | some (nodes, expire) =>
        match s.epoll.add ⟨h.fd, events, some a, some h.serial⟩ with
        | none => .error .epollCtl
        | some epoll =>
          .ok { s.put a { h with
              ref_count := h.ref_count + 1, used := true, event_loop := true, deadline } with
            nodes, expire, epoll, reading := s.clock
            promises := s.promises ++ [⟨h.serial, deadline, .pending⟩] }

/-- `Remove` up to its `DecRef`. -/
def State.unregister (s : State) (a : Addr) : Except Stop State :=
  match s.heap a with
  | none => .error .freed
  | some h =>
    if h.event_loop then
      match Linked.erase s.nodes s.expire a with
      | none => .error .check
      | some (nodes, expire) =>
        if s.epoll.total_events = 0 then .error .check
        else match s.epoll.remove h.fd with
          | none => .error .epollCtl
          | some epoll =>
            .ok { s.put a { h with event_loop := false } with
              nodes, expire, epoll
              promises := settle s.promises h.serial (.withdrawn s.clock) }
    else .error .check

def State.remove (s : State) (a : Addr) : Except Stop State :=
  (s.unregister a).bind (·.decRef a)

def State.modify (s : State) (a : Addr) (events : Events) : Except Stop State :=
  match s.heap a with
  | none => .error .freed
  | some h =>
    if h.event_loop ∧ s.epoll.total_events ≠ 0 then
      match s.epoll.modify ⟨h.fd, events, some a, some h.serial⟩ with
      | none => .error .epollCtl
      | some epoll => .ok { s with epoll }
    else .error .check

/-- Whether the tail is due after `deadline`. -/
def State.late (s : State) (deadline : ℕ) : Option Bool :=
  match s.expire.tail with
  | none => some false
  | some tail => (s.heap tail).map fun t : Handler => decide (deadline < t.deadline)

/-- The handler has its new deadline before the one of the tail is looked at: they may be the
same. -/
def State.refresh (s : State) (a : Addr) : Except Stop State :=
  match s.heap a with
  | none => .error .freed
  | some h =>
    if h.event_loop then
      let deadline := s.clock + timeout
      let s := s.put a { h with deadline }
      match s.late deadline with
      | none => .error .freed
      | some true => .error .check
      | some false =>
        match (Linked.erase s.nodes s.expire a).bind fun r => Linked.addTail r.1 r.2 a with
        | none => .error .check
        | some (nodes, expire) =>
          .ok { s with
            nodes, expire, reading := s.clock
            promises := settle s.promises h.serial (.withdrawn s.clock) ++
              [⟨h.serial, deadline, .pending⟩] }
    else .error .check

/-- The first pass over the events: each handler is referenced. -/
def State.prepass (s : State) : List Event → Except Stop State
  | [] => .ok s
  | ev :: rest =>
    match ev.data with
    | none => s.prepass rest
    | some a => (s.incRef a).bind fun s => s.prepass rest

/-- What `epoll_wait` writes to `events_`. -/
def reported (batch : List (Interest × Events)) : List Event :=
  batch.map fun e => ⟨e.2, e.1.data, e.1.owner⟩

/-- One round of the second pass up to the call, if there is one. -/
def State.dispatch (s : State) (ev : Event) (todo : List Event) : Except Stop State :=
  match ev.data with
  | none => .ok { s with phase := .running todo }
  | some a =>
    match s.heap a with
    | none => .error .freed
    | some h =>
      if h.event_loop then
        .ok { s with
          phase := .handling a todo
          calls := s.calls ++ [⟨h.serial, h.event_loop, ev.owner⟩] }
      else (s.decRef a).map fun s => { s with phase := .dispatching todo }

/-- One round of the last loop of `Loop` up to `OnTimeout`, or the end of it. -/
def State.expireHead (s : State) : Except Stop State :=
  match s.expire.head with
  | none => .ok { s with phase := .waiting }
  | some a =>
    match s.heap a with
    | none => .error .freed
    | some h =>
      if s.clock < h.deadline then .ok { s with phase := .waiting, reading := s.clock }
      else if h.event_loop then
        (s.incRef a).map fun s => { s with
          phase := .timingOut a
          reading := s.clock
          calls := s.calls ++ [⟨h.serial, h.event_loop, none⟩]
          promises := settle s.promises h.serial (.fired s.clock) }
      else .error .check

/-- The rest of that round. -/
def State.timedOut (s : State) (a : Addr) : Except Stop State :=
  match s.heap a with
  | none => .error .freed
  | some h =>
    (if h.event_loop then s.refresh timeout a else .ok s).bind fun s =>
      (s.decRef a).map fun s => { s with phase := .expiring }

inductive Action
  | tick (elapsed : ℕ)
  | wait (capacity : ℕ)                       -- what a resize makes of `events_.size()`
  | ready (batch : List (Interest × Events))  -- `epoll_wait` returns
  | next                                      -- a step of `Loop` itself
  | back                                      -- the call that `Loop` has made returns
  | construct (a : Addr) (fd : Fd)
  | add (a : Addr) (events : Events)
  | remove (a : Addr)
  | modify (a : Addr) (events : Events)
  | refresh (a : Addr)
  | incRef (a : Addr)
  | decRef (a : Addr)
  | close (fd : Fd)

/-- A handler or a scheduled function is running. -/
def Phase.calls : Phase → Bool
  | .handling _ _ | .running _ | .timingOut _ => true
  | _ => false

/-- The state after a computation that may have stopped. -/
def State.after (s : State) (result : Except Stop State) : State :=
  match result with
  | .ok t => t
  | .error why => { s with phase := .stopped why }

/-- What a handler or a scheduled function does. -/
def State.mutate (s : State) : Action → Option (Except Stop State)
  | .construct a fd =>
    if (s.heap a).isNone then
      some (.ok { s.put a { fd, serial := s.serials } with
        nodes := Function.update s.nodes a (some {}), serials := s.serials + 1 })
    else none
  | .add a events => some (s.add timeout a events)
  | .remove a => some (s.remove a)
  | .modify a events => some (s.modify a events)
  | .refresh a => some (s.refresh timeout a)
  | .incRef a => some ((s.incRef a).map (·.hold a (· + 1)))
  | .decRef a => some ((s.hold a (· - 1)).decRef a)
  | .close fd => some (.ok { s with epoll := s.epoll.close fd })
  | _ => none

def step (s : State) : Action → Option State
  | .tick elapsed => some { s with clock := s.clock + elapsed }
  | .wait capacity =>
    match s.phase with
    | .waiting =>
      if s.epoll.size < s.epoll.total_events then
        if s.epoll.total_events ≤ capacity then
          some { s with epoll := { s.epoll with size := capacity }, phase := .polling s.clock }
        else none
      else some { s with phase := .polling s.clock }
    | _ => none
  | .ready batch =>
    match s.phase with
    | .polling _ =>
      if s.epoll.size = 0 then some { s with phase := .stopped .epollCtl }
      else if batch.length ≤ s.epoll.size ∧ (batch.map (·.1.fd)).Nodup ∧
          ∀ e ∈ batch, e.1 ∈ s.epoll.interest then
        some (s.after ((s.prepass (reported batch)).map fun s =>
          { s with phase := .dispatching (reported batch) }))
      else none
    | _ => none
  | .next =>
    match s.phase with
    | .dispatching [] => some { s with phase := .expiring }
    | .dispatching (ev :: todo) => some (s.after (s.dispatch ev todo))
    | .expiring => some (s.after s.expireHead)
    | _ => none
  | .back =>
    match s.phase with
    | .handling a todo =>
      some (s.after ((s.decRef a).map fun s => { s with phase := .dispatching todo }))
    | .running todo => some { s with phase := .dispatching todo }
    | .timingOut a => some (s.after (s.timedOut timeout a))
    | _ => none
  | a => if s.phase.calls then (s.mutate timeout a).map s.after else none

end Hcproxy.Loop
