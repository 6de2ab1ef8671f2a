import Hcproxy.ForwarderTunnels

set_option autoImplicit false

namespace Hcproxy.Forwarder

/-- A socket as its side of the kernel sees it. Something is `ready` when there are bytes or the
end of the stream to read, there is `room` when the send buffer accepts bytes, and `nospace` when a
write was refused since it last did. The edges are the ones that `epoll_wait` has not reported.
Whether the last attempts to read and to write were refused is history. -/
structure Socket where
  mask : Events := 0              -- what it is registered for
  ready : Bool := false
  room : Bool := true
  nospace : Bool := false
  edgeIn : Bool := false
  edgeOut : Bool := false
  deniedIn : Bool := false
  deniedOut : Bool := false

/-- Bytes or the end of the stream arrive. -/
def Socket.data (s : Socket) : Socket :=
  { s with ready := true, edgeIn := s.edgeIn || hasBits s.mask EPOLLIN }

/-- Room appears in the send buffer. -/
def Socket.space (s : Socket) : Socket :=
  if s.room then s
  else { s with
    room := true
    nospace := false
    edgeOut := s.edgeOut || (s.nospace && hasBits s.mask EPOLLOUT) }

/-- `EPOLL_CTL_ADD` and `EPOLL_CTL_MOD` -/
def Socket.register (s : Socket) (events : Events) : Socket :=
  { s with
    mask := events
    edgeIn := s.ready && hasBits events EPOLLIN
    edgeOut := s.room && hasBits events EPOLLOUT }

/-- `EPOLL_CTL_DEL` -/
def Socket.unregister (s : Socket) : Socket :=
  { s with mask := 0, edgeIn := false, edgeOut := false }

def Socket.report (s : Socket) (events : Events) : Socket :=
  { s with
    edgeIn := s.edgeIn && !hasBits events EPOLLIN
    edgeOut := s.edgeOut && !hasBits events EPOLLOUT }

inductive Arrival
  | data (h : Sock)
  | space (h : Sock)

/-- What happens around one system call: what arrives before it, and what it answers as far as the
state of the kernel leaves that open. -/
structure Turn where
  arrivals : List Arrival := []
  fails : Bool := false
  eof : Bool := false
  bytes : Bytes := []
  count : ℕ := 0
  rest : Bool := false            -- whether what was used is ready, or has room, afterwards
  full : Bool := false            -- whether the pipe is out of free slots afterwards
  blocks : Bool := false
  wiped : Bool := false
  capacity : ℕ := 0
  elapsed : ℕ := 0

/-- The kernel with the sockets and the pipes in it, and what is going to happen. -/
structure World where
  sock : Sock → Socket := fun _ => {}
  full : Sock → Bool := fun _ => false    -- the pipe of that link has no free slot
  script : List Turn := []

def World.put (w : World) (h : Sock) (s : Socket) : World :=
  { w with sock := fun g => if g = h then s else w.sock g }

def World.fill (w : World) (h : Sock) (full : Bool) : World :=
  { w with full := fun g => if g = h then full else w.full g }

def World.arrive (w : World) : Arrival → World
  | .data h => w.put h (w.sock h).data
  | .space h => w.put h (w.sock h).space

def World.arriveAll (w : World) (arrivals : List Arrival) : World := arrivals.foldl arrive w

/-- The next system call. -/
def World.turn (w : World) : Option (Turn × World) :=
  match w.script with
  | [] => none
  | t :: rest => some (t, { w with script := rest }.arriveAll t.arrivals)

/-- The world in the middle of a system call that is answered anyway. -/
def World.pass (w : World) : World :=
  match w.turn with
  | none => w
  | some (_, w) => w

/-- A kernel that reports an edge when a socket is registered while it is ready, when something
arrives, and when room appears after a write was refused. A read is refused when nothing is ready
or when the pipe has something in it and no free slot, a write when there is no room. -/
def edgeTriggered : Kernel World where
  splice_in w h used room := w.turn.map fun (t, w) =>
    let s := w.sock h
    if t.fails then (.error, w)
    else if s.ready = false ∨ 0 < used ∧ w.full (h.1, h.2.other) = true then
      (.again, w.put h { s with deniedIn := true })
    else if t.eof then (.eof, w.put h { s with deniedIn := false })
    else if more : t.bytes.take room ≠ [] then
      (.data (t.bytes.take room) more (List.length_take_le _ _),
        (w.put h { s with ready := t.rest, deniedIn := false }).fill (h.1, h.2.other) t.full)
    else (.error, w)
  write_blocks w h := w.turn.map fun (t, w) =>
    let s := w.sock h
    if s.room || !t.blocks then (false, w)
    else (true, w.put h { s with nospace := true, deniedOut := true })
  splice_out w h size := w.turn.map fun (t, w) =>
    let s := w.sock h
    if t.fails then (.error t.wiped, w)
    else if s.room = false then
      (.again t.wiped, w.put h { s with nospace := true, deniedOut := true })
    else if some : 0 < min size (t.count + 1) then
      (.sent (min size (t.count + 1)) some (Nat.min_le_left _ _),
        (w.put h { s with room := t.rest, deniedOut := false }).fill h t.full)
    else (.error false, w)
  pipe w size := match w.turn with
    | none => (none, w)
    | some (t, w) =>
      (if t.fails then none
        else some ⟨max (max size page) t.capacity,
          Nat.le_trans (Nat.le_max_left _ _) (Nat.le_max_left _ _),
          Nat.le_trans (Nat.le_max_right _ _) (Nat.le_max_left _ _)⟩, w)
  elapse w := match w.turn with
    | none => (0, w)
    | some (t, w) => (t.elapsed, w)
  call w h syscall :=
    let w := w.pass
    match syscall with
    | .epollAdd events => w.put h ((w.sock h).register events)
    | .epollModify events => w.put h ((w.sock h).register events)
    | .epollRemove => w.put h (w.sock h).unregister
    | .shutdownRead => w.put h { w.sock h with ready := true }
    | .shutdownWrite => w
    | .close => w
  wait w batch := batch.foldl (fun w event => match event with
    | .popFunc => w
    | .io i x events => w.put (i, x) ((w.sock (i, x)).report events)) w

/-- Between the steps of the loop nothing happens but that something arrives. What is going to
happen is not the loop's to say. -/
def Arrives (s : State World) : Action World → Prop
  | .outside world => ∃ arrivals script, world = { s.world.arriveAll arrivals with script }
  | _ => True

/-- A loop that has just been constructed, in a world where every socket it may be given accepts
bytes: nothing has been written to it yet. -/
def InitEdges (s : State World) : Prop :=
  Init s ∧ ∀ h, (s.world.sock h).room = true

/-- The states of the loop in such a world. -/
def ReachableEdges (opt : Options) : State World → Prop :=
  Runs.Reachable InitEdges (Runs.Moves (step edgeTriggered opt) Arrives)

/-- The events that the loop still has to dispatch. -/
def Phase.todo : Phase → List Event
  | .dispatching todo => todo
  | _ => []

/-- An edge that has been reported in an event that has not been dispatched. -/
def dueIn (todo : List Event) (h : Sock) : Prop :=
  ∃ events, Event.io h.1 h.2 events ∈ todo ∧ hasBits events EPOLLIN = true

def dueOut (todo : List Event) (h : Sock) : Prop :=
  ∃ events, Event.io h.1 h.2 events ∈ todo ∧ hasBits events EPOLLOUT = true

/-- An event that has been or will be reported for the link `h`, and whose handling runs
`ForwardFromOther` of the link `h` or of the other link. -/
def State.pendingOut (s : State World) (h : Sock) : Prop :=
  (s.world.sock h).edgeOut = true ∨ dueOut s.phase.todo h

def State.pendingIn (s : State World) (h : Sock) : Prop :=
  (s.world.sock h).edgeIn = true ∨ dueIn s.phase.todo h

/-- The direction to the link `x` of a pair can make progress. -/
def CanProgress (w : World) (i : ℕ) (p : Pair) (x : Side) : Prop :=
  (p.link x.other).readable = true ∧ (w.sock (i, x.other)).ready = true ∧
      ((p.link x).out.size = 0 ∨
        (p.link x).out.size < (p.link x).out.capacity ∧ w.full (i, x) = false) ∨
    (p.link x).writable = true ∧ 0 < (p.link x).out.size ∧ (w.sock (i, x)).room = true ∨
    (p.link x.other).readable = false ∧ (p.link x).writable = true ∧ (p.link x).out.size = 0

end Hcproxy.Forwarder
