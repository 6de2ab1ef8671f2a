import Hcproxy.EventLoop
import Hcproxy.Lib.Exec
import Hcproxy.Lib.Runs

set_option autoImplicit false

namespace Hcproxy.Forwarder

abbrev Bytes := List UInt8

/-- `"HTTP/1.1 200 OK\r\n\r\n"` -/
def kResponse : Bytes :=
  [0x48, 0x54, 0x54, 0x50, 0x2F, 0x31, 0x2E, 0x31, 0x20, 0x32, 0x30, 0x30, 0x20, 0x4F, 0x4B,
    0x0D, 0x0A, 0x0D, 0x0A]

/-- A size that `Buffer::Init` accepts: it is positive and less than the largest `int`. -/
abbrev BufferSize := { size_bytes : ℕ // 0 < size_bytes ∧ size_bytes < 2147483647 }

structure Options where
  client_to_server_buffer_size_bytes : BufferSize
  server_to_client_buffer_size_bytes : BufferSize

inductive Side
  | client
  | server
deriving DecidableEq

def Side.other : Side → Side
  | client => server
  | server => client

/-- A socket, by the link pair it belongs to. -/
abbrev Sock := ℕ × Side

/-- What `splice` from a socket into a pipe answers. -/
inductive SpliceIn (room : ℕ)
  | again
  | error
  | eof
  | data (bytes : Bytes) (more : bytes ≠ []) (fits : bytes.length ≤ room)

/-- What `splice` from a pipe into a socket answers. On WSL an error may wipe the pipe. -/
inductive SpliceOut (size : ℕ)
  | again (wiped : Bool)
  | error (wiped : Bool)
  | sent (n : ℕ) (more : 0 < n) (fits : n ≤ size)

/-- The system calls on a socket that return nothing of interest. -/
inductive Call
  | epollAdd (events : Events)
  | epollModify (events : Events)
  | epollRemove
  | shutdownRead
  | shutdownWrite
  | close

/-- An element of `epoll_` that is ready. -/
inductive Event
  | popFunc
  | io (i : ℕ) (x : Side) (events : Events)
deriving DecidableEq

/-- A page: no pipe is smaller. -/
def page : ℕ := 4096

/-- The kernel and the peers, as far as the forwarder can see them. A call that has not been
answered yet answers `none`. -/
structure Kernel (W : Type) where
  splice_in : W → Sock → (used room : ℕ) → Option (SpliceIn room × W)
  write_blocks : W → Sock → Option (Bool × W)
  splice_out : W → Sock → (size : ℕ) → Option (SpliceOut size × W)
  pipe : W → (size : ℕ) → Option { capacity // size ≤ capacity ∧ page ≤ capacity } × W
  elapse : W → ℕ × W
  call : W → Sock → Call → W
  wait : W → List Event → W        -- what is left when `epoll_wait` has reported a batch

/-- The pipe is a FIFO with `content` in it. How often its ends were opened and closed is
history. -/
structure Buffer where
  capacity : ℕ := 0
  size : ℕ := 0
  readEnd : Bool := false         -- `pipe_[0] >= 0`
  writeEnd : Bool := false        -- `pipe_[1] >= 0`
  content : Bytes := []
  opened : Bool := false
  readCloses : ℕ := 0
  writeCloses : ℕ := 0

/-- A `LinkEventHandler`. From `deleted` on it is history: the bytes read from the socket and
delivered to it, whether its end of stream was read, whether `CloseForWriting` has run, how often
the handler was removed, closed and deleted, and the references to it that `Loop`, `OnEvent` and
`OnTimeout` hold. -/
structure Link extends EventHandler where
  out : Buffer := {}
  readable : Bool := true
  writable : Bool := true
  deleted : Bool := false
  received : Bytes := []
  delivered : Bytes := []
  eof : Bool := false
  finished : Bool := false
  removes : ℕ := 0
  closes : ℕ := 0
  deletes : ℕ := 0
  temps : ℕ := 0

/-- The two links that `New` makes, and whether it has set `other_` in each to the other one. That
one of them was terminated is history. -/
structure Pair where
  client : Link := {}
  server : Link := {}
  linked : Bool := false
  terminated : Bool := false

def Pair.link (p : Pair) : Side → Link
  | .client => p.client
  | .server => p.server

def Pair.set (p : Pair) (x : Side) (l : Link) : Pair :=
  match x with
  | .client => { p with client := l }
  | .server => { p with server := l }

/-- What the methods of a link can reach. -/
structure Ctx (W : Type) where
  id : ℕ
  pair : Pair
  loop : EventLoop Sock
  clock : ℕ
  world : W

/-- Why an execution stopped: it waits for the answer of a system call, a `CHECK` failed, which may
be the one of `Refresh` on the deadlines, or it touched a handler that had been deleted or was not
there. -/
inductive Stop
  | pause
  | check
  | unsorted
  | freed
deriving DecidableEq

abbrev Exec (W : Type) := EStateM Stop (Ctx W)

variable {W : Type}

def stop {α : Type} (why : Stop) : Exec W α := EStateM.throw why

def ctx : Exec W (Ctx W) := EStateM.get

def setCtx (c : Ctx W) : Exec W PUnit := EStateM.set c

def check (condition : Prop) [Decidable condition] : Exec W PUnit :=
  if condition then pure ⟨⟩ else stop .check

/-- Reads the members of a link. -/
def get (x : Side) : Exec W Link := do
  let c ← ctx
  if (c.pair.link x).deleted then stop .freed else pure (c.pair.link x)

/-- Writes the members of a link that has just been read. -/
def put (x : Side) (l : Link) : Exec W PUnit := do
  let c ← ctx
  setCtx { c with pair := c.pair.set x l }

/-- `other_` -/
def other (x : Side) : Exec W Side := do
  let _ ← get x
  let c ← ctx
  if c.pair.linked then pure x.other else stop .freed

variable (k : Kernel W)

/-- `Clock::now()` -/
def now : Exec W ℕ := do
  let c ← ctx
  let (elapsed, world) := k.elapse c.world
  setCtx { c with clock := c.clock + elapsed, world }
  pure (c.clock + elapsed)

def call (x : Side) (syscall : Call) : Exec W PUnit := do
  let c ← ctx
  setCtx { c with world := k.call c.world (c.id, x) syscall }

/-- `Buffer::~Buffer` -/
def Buffer.destroy (b : Buffer) : Buffer :=
  { b with
    readEnd := false
    writeEnd := false
    readCloses := b.readCloses + b.readEnd.toNat
    writeCloses := b.writeCloses + b.writeEnd.toNat }

/-- `delete`, with the destructors of `LinkEventHandler`, `Buffer` and `EventHandler`. -/
def delete (x : Side) : Exec W PUnit := do
  let l ← get x
  check (l.readable = false ∧ l.writable = false)
  check (l.event_loop = false)
  check (l.ref_count = 0)
  put x { l with out := l.out.destroy, deleted := true, deletes := l.deletes + 1 }

def incRef (x : Side) : Exec W PUnit := do
  let l ← get x
  put x { l with ref_count := l.ref_count + 1 }

def decRef (x : Side) : Exec W PUnit := do
  let l ← get x
  check (0 < l.ref_count)
  put x { l with ref_count := l.ref_count - 1 }
  if l.ref_count - 1 = 0 then delete x else pure ⟨⟩

/-- An `IncRef` that will be undone by a `release`. -/
def hold (x : Side) : Exec W PUnit := do
  incRef x
  let l ← get x
  put x { l with temps := l.temps + 1 }

def release (x : Side) : Exec W PUnit := do
  let l ← get x
  put x { l with temps := l.temps - 1 }
  decRef x

/-- `loop->Add(x, events)` -/
def add (x : Side) (events : Events) : Exec W PUnit := do
  let l ← get x
  let time ← now k
  let c ← ctx
  match c.loop.add (c.id, x) l.toEventHandler events time with
  | none => stop .check
  | some (loop, eh) =>
    setCtx { c with loop, pair := c.pair.set x { l with toEventHandler := eh } }
    call k x (.epollAdd events)

/-- `loop->Remove(x)` -/
def remove (x : Side) : Exec W PUnit := do
  let l ← get x
  let c ← ctx
  match c.loop.remove (c.id, x) l.toEventHandler with
  | none => stop .check
  | some (loop, eh) =>
    setCtx { c with
      loop, pair := c.pair.set x { l with toEventHandler := eh, removes := l.removes + 1 } }
    call k x .epollRemove
    decRef x

/-- `loop->Modify(x, events)` -/
def modify (x : Side) (events : Events) : Exec W PUnit := do
  let l ← get x
  let c ← ctx
  match c.loop.modify l.toEventHandler events with
  | none => stop .check
  | some eh =>
    put x { l with toEventHandler := eh }
    call k x (.epollModify events)

/-- `loop->Refresh(x)` -/
def refreshLoop (x : Side) : Exec W PUnit := do
  let l ← get x
  let time ← now k
  let c ← ctx
  match c.loop.refresh (c.id, x) l.toEventHandler time with
  | .error .registered => stop .check
  | .error .sorted => stop .unsorted
  | .ok loop => setCtx { c with loop }

inductive IoStatus
  | data
  | eof
  | error
  | noOp
deriving DecidableEq

/-- `out_.Init(size_bytes)` -/
def init (x : Side) (size_bytes : BufferSize) : Exec W Bool := do
  let l ← get x
  let c ← ctx
  match k.pipe c.world size_bytes.1 with
  | (none, world) =>
    setCtx { c with world }
    pure false
  | (some capacity, world) =>
    setCtx { c with
      world
      pair := c.pair.set x { l with out :=
        { l.out with capacity := capacity.1, readEnd := true, writeEnd := true, opened := true } } }
    pure true

/-- `out_.Write(data)` -/
def write (x : Side) (data : Bytes) : Exec W PUnit := do
  let l ← get x
  check (l.out.size ≤ l.out.capacity)
  check (data.length ≤ l.out.capacity - l.out.size)
  check (l.out.writeEnd = true)
  put x { l with out :=
    { l.out with content := l.out.content ++ data, size := l.out.size + data.length } }
  check (l.out.size + data.length ≤ l.out.capacity)

/-- `close(pipe_[1])` -/
def Buffer.closeWriteEnd (b : Buffer) : Buffer :=
  { b with writeEnd := false, writeCloses := b.writeCloses + 1 }

/-- `close(pipe_[0])` -/
def Buffer.closeReadEnd (b : Buffer) : Buffer :=
  { b with readEnd := false, readCloses := b.readCloses + 1 }

/-- `out_.WriteFrom(other_->fd())` -/
def writeFrom (x : Side) : Exec W IoStatus := do
  let l ← get x
  let m ← get x.other
  check (l.out.writeEnd = true)
  check (l.out.size ≤ l.out.capacity)
  if l.out.size = l.out.capacity then pure .noOp
  else do
    let c ← ctx
    match k.splice_in c.world (c.id, x.other) l.out.size (l.out.capacity - l.out.size) with
    | none => stop .pause
    | some (answer, world) =>
      setCtx { c with world }
      match answer with
      | .again => pure .noOp
      | .error =>
        put x { l with out := l.out.closeWriteEnd }
        pure .error
      | .eof =>
        put x { l with out := l.out.closeWriteEnd }
        put x.other { m with eof := true }
        pure .eof
      | .data bytes _ _ =>
        put x { l with out :=
          { l.out with content := l.out.content ++ bytes, size := l.out.size + bytes.length } }
        put x.other { m with received := m.received ++ bytes }
        check (l.out.size + bytes.length ≤ l.out.capacity)
        pure .data

/-- What an error of `splice` leaves in the pipe. -/
def Buffer.wipe (b : Buffer) (wiped : Bool) : Buffer :=
  { b with content := if wiped then [] else b.content }

/-- `out_.ReadTo(fd())` -/
def readTo (x : Side) : Exec W IoStatus := do
  let l ← get x
  check (l.out.readEnd = true)
  if l.out.size = 0 then
    if l.out.writeEnd then pure .noOp
    else do
      put x { l with out := l.out.closeReadEnd }
      pure .eof
  else do
    let c ← ctx
    match k.write_blocks c.world (c.id, x) with
    | none => stop .pause
    | some (true, world) =>
      setCtx { c with world }
      pure .noOp
    | some (false, world) =>
      setCtx { c with world }
      let c ← ctx
      match k.splice_out c.world (c.id, x) l.out.size with
      | none => stop .pause
      | some (answer, world) =>
        setCtx { c with world }
        match answer with
        | .again wiped =>
          let b := l.out.wipe wiped
          -- `FIONREAD` tells how much is in the pipe.
          if b.content.length = l.out.size then do
            put x { l with out := b }
            pure .noOp
          else do
            put x { l with out := b.closeReadEnd }
            pure .error
        | .error wiped =>
          put x { l with out := (l.out.wipe wiped).closeReadEnd }
          pure .error
        | .sent n _ _ =>
          put x { l with
            out := { l.out with content := l.out.content.drop n, size := l.out.size - n }
            delivered := l.delivered ++ l.out.content.take n }
          check (l.out.size - n ≤ l.out.capacity)
          pure .data

/-- `Close(loop)` -/
def close (x : Side) : Exec W PUnit := do
  let l ← get x
  if l.readable || l.writable then do
    put x { l with readable := false, writable := false }
    decRef (← other x)
    remove k x
    let l ← get x
    put x { l with closes := l.closes + 1 }
    call k x .close
  else pure ⟨⟩

/-- `Terminate(loop)` -/
def terminate (x : Side) : Exec W PUnit := do
  let c ← ctx
  setCtx { c with pair := { c.pair with terminated := true } }
  close k x
  close k (← other x)

def closeForReading (x : Side) : Exec W PUnit := do
  let l ← get x
  check (l.readable = true)
  if l.writable then do
    put x { l with readable := false }
    modify k x (EPOLLOUT ||| EPOLLET)
    call k x .shutdownRead
  else close k x

def closeForWriting (x : Side) : Exec W PUnit := do
  let l ← get x
  check (l.writable = true)
  put x { l with finished := true }
  let l ← get x
  if l.readable then do
    put x { l with writable := false }
    modify k x (EPOLLIN ||| EPOLLET)
    call k x .shutdownWrite
  else close k x

/-- The first half of the body of the loop in `ForwardFromOther`: `none` is `return false`, else
whether there was any `io`. -/
def fill (x : Side) : Exec W (Option Bool) := do
  let y ← other x
  let m ← get y
  if m.readable then do
    match ← writeFrom k x with
    | .data => pure (some true)
    | .eof =>
      closeForReading k y
      pure (some true)
    | .error =>
      terminate k x
      pure none
    | .noOp => pure (some false)
  else pure (some false)

/-- The second half. -/
def drain (x : Side) : Exec W (Option Bool) := do
  let l ← get x
  if l.writable then do
    match ← readTo k x with
    | .data => pure (some true)
    | .eof =>
      closeForWriting k x
      pure (some true)
    | .error =>
      terminate k x
      pure none
    | .noOp => pure (some false)
  else pure (some false)

/-- The loop in `ForwardFromOther(loop)`, for as many passes as there is fuel. -/
def forward (x : Side) : (fuel : ℕ) → (res : Bool) → Exec W Bool
  | 0, _ => stop .pause
  | fuel + 1, res => do
    match ← fill k x with
    | none => pure false
    | some filled =>
      match ← drain k x with
      | none => pure false
      | some drained => if filled || drained then forward x fuel true else pure res

/-- `ForwardFromOther(loop)` -/
def forwardFromOther (fuel : ℕ) (x : Side) : Exec W Bool := forward k x fuel false

/-- `Process`. The operands of `|` may be evaluated in either order. -/
def process (fuel : ℕ) (x : Side) (events : Events) (leftFirst : Bool) : Exec W Bool := do
  if hasBits events EPOLLERR then do
    terminate k x
    pure false
  else do
    let out := if hasBits events EPOLLOUT then forwardFromOther k fuel x else pure false
    let into := if hasBits events EPOLLIN then do forwardFromOther k fuel (← other x)
      else pure false
    if leftFirst then do
      let l ← out
      let r ← into
      pure (l || r)
    else do
      let r ← into
      let l ← out
      pure (l || r)

def refresh (x : Side) : Exec W PUnit := do
  let l ← get x
  if l.readable || l.writable then refreshLoop k x else pure ⟨⟩

/-- `OnEvent(loop, events)` -/
def onEvent (fuel : ℕ) (x : Side) (events : Events) (leftFirst : Bool) : Exec W PUnit := do
  hold (← other x)
  if ← process k fuel x events leftFirst then do
    refresh k x
    refresh k (← other x)
  release (← other x)

/-- `OnTimeout(loop)` -/
def onTimeout (x : Side) : Exec W PUnit := do
  hold (← other x)
  terminate k x
  release (← other x)

/-- What `New` does to a handler when there are no pipes for the pair. -/
def discard (x : Side) : Exec W PUnit := do
  call k x .close
  let l ← get x
  put x { l with readable := false, writable := false, closes := l.closes + 1 }
  delete x

/-- `LinkEventHandler::New`, from two handlers that have just been constructed on. -/
def new (opt : Options) : Exec W PUnit := do
  let ready ← (do
    if ← init k .client opt.server_to_client_buffer_size_bytes
    then init k .server opt.client_to_server_buffer_size_bytes
    else pure false)
  if ready then do
    let c ← ctx
    setCtx { c with pair := { c.pair with linked := true } }
    incRef .client
    incRef .server
    add k .client (EPOLLIN ||| EPOLLOUT ||| EPOLLET)
    add k .server (EPOLLIN ||| EPOLLOUT ||| EPOLLET)
    write .client kResponse
  else do
    discard k .client
    discard k .server

/-- Where the loop is. An execution that stopped in the middle of a call is stuck there. -/
inductive Phase
  | waiting
  | dispatching (todo : List Event)
  | expiring
  | stopped (why : Stop)
deriving DecidableEq

structure State (W : Type) where
  loop : EventLoop Sock
  clock : ℕ
  world : W
  pairs : List Pair := []
  phase : Phase := .waiting

/-- What the loop goes on from when a call has returned, or is stuck in when it has not. -/
def State.leave (s : State W) (result : EStateM.Result Stop (Ctx W) PUnit) (next : Phase) :
    State W :=
  match result with
  | .ok _ c => ⟨c.loop, c.clock, c.world, s.pairs.set c.id c.pair, next⟩
  | .error why c => ⟨c.loop, c.clock, c.world, s.pairs.set c.id c.pair, .stopped why⟩

/-- Runs a method of a link of the pair `i`. -/
def State.run (s : State W) (i : ℕ) (m : Exec W PUnit) (next : Phase) : State W :=
  match s.pairs[i]? with
  | none => { s with phase := .stopped .freed }
  | some pair => s.leave (m ⟨i, pair, s.loop, s.clock, s.world⟩) next

/-- `(*f)()` of a function that was scheduled by `Forward`. -/
def State.runNew (s : State W) (opt : Options) (next : Phase) : State W :=
  { s with pairs := s.pairs ++ [({} : Pair)] }.leave
    (new k opt ⟨s.pairs.length, {}, s.loop, s.clock, s.world⟩) next

/-- The first pass over the events of a batch. -/
def State.holdAll (s : State W) : List Event → State W
  | [] => s
  | .popFunc :: rest => s.holdAll rest
  | .io i x _ :: rest => (s.run i (hold x) s.phase).holdAll rest

/-- The second pass, for one event with a handler. -/
def dispatch (fuel : ℕ) (x : Side) (events : Events) (leftFirst : Bool) : Exec W PUnit := do
  let l ← get x
  if l.event_loop then onEvent k fuel x events leftFirst
  release x

/-- The body of the loop over `expire_`, for a handler that has expired. -/
def expire (x : Side) : Exec W PUnit := do
  let l ← get x
  check (l.event_loop = true)
  hold x
  onTimeout k x
  let l ← get x
  if l.event_loop then refreshLoop k x
  release x

/-- `epoll_wait` reports only what is registered. -/
def State.reports (s : State W) : Event → Bool
  | .popFunc => true
  | .io i x _ => s.pairs[i]?.any fun pair => (pair.link x).events.isSome

inductive Action (W : Type)
  | outside (world : W)          -- whatever happens out there
  | wait (batch : List Event)
  | dispatch (fuel : ℕ) (leftFirst : Bool)
  | expire

/-- The steps of `EventLoop::Loop`. -/
def step (opt : Options) (s : State W) : Action W → Option (State W)
  | .outside world => some { s with world }
  | .wait batch =>
    match s.phase with
    | .waiting =>
      if batch.all s.reports then
        some (({ s with
          world := k.wait s.world batch, phase := .dispatching batch } : State W).holdAll batch)
      else none
    | _ => none
  | .dispatch fuel leftFirst =>
    match s.phase with
    | .dispatching (.popFunc :: rest) => some (s.runNew k opt (.dispatching rest))
    | .dispatching (.io i x events :: rest) =>
      some (s.run i (dispatch k fuel x events leftFirst) (.dispatching rest))
    | .dispatching [] => some { s with phase := .expiring }
    | _ => none
  | .expire =>
    match s.phase with
    | .expiring =>
      match s.loop.expire with
      | [] => some { s with phase := .waiting }
      | (h, deadline) :: _ =>
        let (elapsed, world) := k.elapse s.world
        let s := { s with clock := s.clock + elapsed, world }
        if s.clock < deadline then some { s with phase := .waiting }
        else some (s.run h.1 (expire k h.2) .expiring)
    | _ => none

/-- A loop that has just been constructed. -/
def Init (s : State W) : Prop :=
  ∃ timeout clock world, s = { loop := { timeout }, clock, world }

/-- The states of the loop, the ones in the middle of a call included: a call stops at every
system call that has not been answered. -/
def Reachable (opt : Options) : State W → Prop :=
  Runs.Reachable Init (Runs.Moves (step k opt) Runs.always)

end Hcproxy.Forwarder
