import Hcproxy.Dns
import Hcproxy.Forwarder
import Hcproxy.Lib.Programs
import Hcproxy.PortFilter

set_option autoImplicit false

namespace Hcproxy.Proxy

open Programs
open Hcproxy.Dns (HostPort)
open Hcproxy.Forwarder (Kernel)
open Ring (Cursor)

/-- The loops of `Parser`, `Connector` and `Forwarder`. -/
inductive LoopId
  | parser
  | connector
  | forwarder
  deriving DecidableEq

/-- `worker i` is a thread of `DnsResolver::threads_`. What happens outside of the process is a
thread too. -/
inductive Thread
  | main
  | loop (l : LoopId)
  | worker (i : ℕ)
  | outside
  deriving DecidableEq

/-- `DnsResolver::mutex_` and `ThreadPool::mutex_`. -/
inductive Mutex
  | dns
  | pool
  deriving DecidableEq

/-- An open file. The number of a file is used again once it is closed; `serial` is history. -/
structure File where
  fd : ℕ
  serial : ℕ
  deriving DecidableEq

/-- The callback that `RunProxy` gives to `Resolve`. It has captured `client_fd` by value and
`host_port` by reference: this is the parameter of a call of the parser's callback. -/
structure Callback where
  client : File
  host_port : ℕ
  deriving DecidableEq

/-- A `ParseEventHandler`, or a `ConnectEventHandler` with the `client_fd` of its callback. -/
inductive Handler
  | parse (client : File)
  | connect (server client : File)
  deriving DecidableEq

def Handler.loop : Handler → LoopId
  | .parse _ => .parser
  | .connect _ _ => .connector

def Handler.fd : Handler → File
  | .parse client => client
  | .connect server _ => server

/-- The functions that are scheduled on loops. -/
inductive Function
  | add (eh : Handler)                     -- `event_loop_.Add(eh, ...)`
  | new (client server : File)             -- `LinkEventHandler::New`

/-- The callbacks of `ParseRequest`, `Resolve` and `Connect`. -/
inductive Called
  | parsed
  | resolved
  | connected

/-- What threads do to the state they share, and system calls. -/
inductive Op (A W : Type)
  | accept
  | new (eh : Handler)
  | add (eh : Handler)
  | remove (eh : Handler)
  | decRef (eh : Handler)                  -- the last one of `Loop`
  | read (eh : Handler)
  | enter (eh : Handler)                   -- a call of the callback that `eh` was made with
  | leave (i : ℕ)
  | host_port (i : ℕ)                      -- reads the parameter of that call
  | close (file : File)
  | resolve (host_port : HostPort) (cb : Callback)
  | lockCall (i : ℕ)
  | scheduleCall (i : ℕ)
  | answerCall (i : ℕ)
  | start
  | lockWorker (j : ℕ)
  | returnResolve (j : ℕ)
  | readClock (j : ℕ)
  | lockRecord (j : ℕ)
  | callback (j : ℕ)
  | relock (j : ℕ)
  | schedule (j : ℕ)
  | socket (addr : Cursor A)
  | connect (server : File) (addr : Cursor A)
  | sockError (server : File)
  | forward (client server : File)         -- `LinkEventHandler::New`
  | link (action : Forwarder.Action W)     -- the loop of the forwarder goes on
  | tick (elapsed : ℕ)

def Op.Res {A W : Type} : Op A W → Type
  | .accept => File
  | .read _ => Option HostPort
  | .enter _ | .resolve _ _ => ℕ
  | .lockCall _ => Dns.Call Callback A
  | .start => Option ℕ
  | .lockWorker _ | .lockRecord _ => Dns.Worker Callback A
  | .socket _ => Option File
  | .connect _ _ | .sockError _ => Bool
  | _ => Unit

abbrev signature (A W : Type) : Signature := ⟨Op A W, Op.Res, Mutex, LoopId, Function, Called⟩

abbrev Code (A W : Type) := Prog (signature A W)

section Code

variable {A W : Type}

/-- Runs a function on the thread of its loop. -/
def run : Function → Code A W → Code A W
  | .add eh, next => .op (.add eh) fun _ => next
  | .new client server, next => .op (.forward client server) fun _ => next

/-- `ScheduleOrRun` -/
def scheduleOrRun (self : Thread) (l : LoopId) (f : Function) (next : Code A W) : Code A W :=
  if self = .loop l then run f next else .schedule l f next

/-- `Forwarder::Forward` -/
def forward (self : Thread) (client server : File) (next : Code A W) : Code A W :=
  scheduleOrRun self .forwarder (.new client server) next

/-- The callback of `Connect`. -/
def connected (self : Thread) (client : File) (server : Option File) (next : Code A W) :
    Code A W :=
  match server with
  | none => .op (.close client) fun _ => next
  | some server => forward self client server next

/-- `Connector::Connect`, with `ConnectAsync`. -/
def connect (self : Thread) (addr : Cursor A) (client : File) (next : Code A W) : Code A W :=
  .op (.socket addr) fun
  | none => .call .connected (connected self client none next)
  | some server => .op (.connect server addr) fun
    | false => .op (.close server) fun _ => .call .connected (connected self client none next)
    | true => .op (.new (.connect server client)) fun _ =>
        scheduleOrRun self .connector (.add (.connect server client)) next

/-- The callback of `Resolve`. -/
def resolved (self : Thread) (cb : Callback) (addr : Option (Cursor A)) (next : Code A W) :
    Code A W :=
  match addr with
  | none => .op (.host_port cb.host_port) fun _ => .op (.close cb.client) fun _ => next
  | some addr => connect self addr cb.client next

/-- `DnsResolver::Resolve` -/
def resolve (self : Thread) (host_port : HostPort) (cb : Callback) (next : Code A W) : Code A W :=
  .op (.resolve host_port cb) fun i =>
  .lock .dns <| .op (.lockCall i) fun
  | .scheduling _ _ => .unlock .dns <|
      .lock .pool <| .op (.scheduleCall i) fun _ => .unlock .pool next
  | .calling answer => .unlock .dns <|
      .call .resolved <| .op (.answerCall i) fun _ => resolved self cb answer.addr next
  | _ => .unlock .dns next

/-- The callback of `ParseRequest`. -/
def parsed (self : Thread) (allowed_ports : Finset HostPort) (i : ℕ) (client : File)
    (host_port : HostPort) (next : Code A W) : Code A W :=
  match PortFilter.onParsed allowed_ports host_port with
  | .closes => .op (.close client) fun _ => next
  | .resolves host_port => resolve self host_port ⟨client, i⟩ next

/-- `ParseEventHandler::Finish`, and what `Loop` does behind it. -/
def parseFinish (self : Thread) (allowed_ports : Finset HostPort) (client : File)
    (host_port : HostPort) : Code A W :=
  .op (.remove (.parse client)) fun _ =>
  .call .parsed <| .op (.enter (.parse client)) fun i =>
  parsed self allowed_ports i client host_port <|
  .op (.leave i) fun _ => .op (.decRef (.parse client)) fun _ => .ret

/-- `ParseEventHandler::OnEvent` -/
def parseOnEvent (self : Thread) (allowed_ports : Finset HostPort) (client : File)
    (events : Events) : Code A W :=
  if hasBits events EPOLLERR then parseFinish self allowed_ports client []
  else if hasBits events EPOLLIN then .op (.read (.parse client)) fun
    | none => .op (.decRef (.parse client)) fun _ => .ret
    | some host_port => parseFinish self allowed_ports client host_port
  else .op (.decRef (.parse client)) fun _ => .ret

/-- `ConnectEventHandler::Finish`, and what `Loop` does behind it. -/
def connectFinish (self : Thread) (server client : File) (ok : Bool) : Code A W :=
  .op (.remove (.connect server client)) fun _ =>
  let done := .op (.decRef (.connect server client)) fun _ => .ret
  if ok then .call .connected <| connected self client (some server) done
  else .op (.close server) fun _ => .call .connected <| connected self client none done

/-- `ConnectEventHandler::OnEvent` -/
def connectOnEvent (self : Thread) (server client : File) (events : Events) : Code A W :=
  if hasBits events EPOLLERR || hasBits events EPOLLOUT then
    .op (.sockError server) fun ok => connectFinish self server client ok
  else .op (.decRef (.connect server client)) fun _ => .ret

def onEvent (self : Thread) (allowed_ports : Finset HostPort) (events : Events) :
    Handler → Code A W
  | .parse client => parseOnEvent self allowed_ports client events
  | .connect server client => connectOnEvent self server client events

def onTimeout (self : Thread) (allowed_ports : Finset HostPort) : Handler → Code A W
  | .parse client => parseFinish self allowed_ports client []
  | .connect server client => connectFinish self server client false

/-- `for (const auto& f : callbacks) f(Advance(addr))` -/
def callAll (self : Thread) (j : ℕ) : List Callback → Option (Cursor A) → Code A W → Code A W
  | [], _, next => next
  | f :: rest, addr, next =>
    .call .resolved <| .op (.callback j) fun _ =>
    resolved self f addr (callAll self j rest (Dns.advance addr) next)

/-- The end of `ProcessCacheEntry`. -/
def scheduleNext (j : ℕ) : Code A W :=
  .lock .pool <| .op (.schedule j) fun _ => .unlock .pool .ret

/-- `ProcessCacheEntry` from `if (!c.callbacks.empty())` on. -/
def answerAll (self : Thread) (j : ℕ) : Dns.Worker Callback A → Code A W
  | .calling _ callbacks addr _ _ _ => .unlock .dns <|
      callAll self j callbacks addr <|
      .lock .dns <| .op (.relock j) fun _ => .unlock .dns <| scheduleNext j
  | .scheduling _ _ => .unlock .dns <| scheduleNext j
  | _ => .unlock .dns .ret

/-- `DnsResolver::ProcessCacheEntry` -/
def processCacheEntry (self : Thread) (j : ℕ) : Code A W :=
  .lock .dns <| .op (.lockWorker j) fun
  | .resolving _ => .unlock .dns <| .op (.returnResolve j) fun _ => .op (.readClock j) fun _ =>
      .lock .dns <| .op (.lockRecord j) fun after => answerAll self j after
  | after => answerAll self j after

/-- One pass of `ThreadPool::Loop`. A thread that finds nothing to do gives up the mutex when it
waits for a condition variable, and may wake up at any time. -/
def next (self : Thread) : Code A W :=
  .lock .pool <| .op .start fun
  | none => .unlock .pool .ret
  | some j => .unlock .pool <| processCacheEntry self j

/-- `Parser::ParseRequest` -/
def parseRequest (self : Thread) (client : File) (next : Code A W) : Code A W :=
  .op (.new (.parse client)) fun _ =>
  scheduleOrRun self .parser (.add (.parse client)) next

/-- One pass of the loop in `RunProxy`. -/
def acceptNext (self : Thread) : Code A W :=
  .op .accept fun client => parseRequest self client .ret

end Code

/-- A system call on an open file, and the file that the kernel had under its number. -/
structure Use where
  file : File
  found : Option ℕ
  deriving DecidableEq

/-- A look at the parameter of a call of the parser's callback: whether the call had not returned,
and whether the handler with the characters was alive. -/
structure Read where
  active : Bool
  alive : Bool
  deriving DecidableEq

/-- What the threads share, beside mutexes and pipes. `registered` and `alive` are the handlers of
the parser and the connector, `files` what is open in the kernel and `links` the sockets of the
forwarder's pairs. From `serials` on it is history: the number of files opened, the calls of the
parser's callback that have not returned with their handlers, the number of such calls, what was
read of their parameters, and the system calls. -/
structure Shared (A W : Type) where
  dns : Dns.State Callback A
  forwarder : Forwarder.State W
  registered : List Handler := []
  alive : List Handler := []
  files : List File := []
  links : List (File × File) := []
  serials : ℕ := 0
  active : List (ℕ × Handler) := []
  calls : ℕ := 0
  reads : List Read := []
  uses : List Use := []

/-- What the environment decides. -/
inductive Reply (A W : Type)
  | nothing
  | fd (fd : ℕ)
  | ok (ok : Bool)
  | request (host_port : Option HostPort)
  | task (k : ℕ)
  | addresses (addr : Option { items : List A // items ≠ [] })
  | event (eh : Handler) (events : Events)
  | timeout (eh : Handler)
  | link (action : Forwarder.Action W)
  | tick (elapsed : ℕ)

structure Options where
  allowed_ports : Finset HostPort
  dns : Dns.Options
  num_dns_resolution_threads : ℕ
  forwarder : Forwarder.Options

section Exec

variable {A W : Type}

/-- The kernel looks up the number of a file. -/
def Shared.use (s : Shared A W) (file : File) : Shared A W :=
  { s with uses := s.uses ++ [⟨file, (s.files.find? (·.fd == file.fd)).map File.serial⟩] }

/-- A file is opened under a number that is free. -/
def Shared.open (s : Shared A W) (fd : ℕ) : Option (File × Shared A W) :=
  if fd ∈ s.files.map File.fd then none
  else some (⟨fd, s.serials⟩, { s with files := s.files ++ [⟨fd, s.serials⟩], serials := s.serials + 1 })

/-- `close` -/
def Shared.close (s : Shared A W) (file : File) : Shared A W :=
  { s.use file with files := s.files.filter (·.fd ≠ file.fd) }

/-- The sockets that the links have closed. -/
def closedLinks (forwarder : Forwarder.State W) (links : List (File × File)) : List File :=
  (List.range links.length).flatMap fun i =>
    match links[i]?, forwarder.pairs[i]? with
    | some (client, server), some pair =>
      (if 0 < pair.client.closes then [client] else []) ++
        if 0 < pair.server.closes then [server] else []
    | _, _ => []

/-- The forwarder has made a step. -/
def Shared.linked (s : Shared A W) (forwarder : Forwarder.State W) (links : List (File × File)) :
    Shared A W :=
  { s with forwarder, links, files := s.files.filter (· ∉ closedLinks forwarder links) }

/-- Whether the loop of the forwarder is about to call `PopFunc`. -/
def popsNext (forwarder : Forwarder.State W) : Bool :=
  match forwarder.phase with
  | .dispatching (.popFunc :: _) => true
  | _ => false

variable (opt : Options) (k : Kernel W)

/-- A step of the resolver. -/
def Shared.dnsStep (s : Shared A W) (action : Dns.Action Callback A) : Option (Shared A W) :=
  (Dns.step opt.dns s.dns action).map fun dns => { s with dns }

def exec : (o : Op A W) → Reply A W → Shared A W → Option (o.Res × Shared A W)
  | .accept, .fd fd, s => s.open fd
  | .new eh, _, s => some ((), { s with alive := eh :: s.alive })
  | .add eh, _, s =>
    if eh ∈ s.registered then none
    else some ((), { s.use eh.fd with registered := eh :: s.registered })
  | .remove eh, _, s =>
    if eh ∈ s.registered then
      some ((), { s.use eh.fd with registered := s.registered.filter (· ≠ eh) })
    else none
  | .decRef eh, _, s =>
    some ((), if eh ∈ s.registered then s else { s with alive := s.alive.filter (· ≠ eh) })
  | .read eh, .request host_port, s => some (host_port, s.use eh.fd)
  | .enter eh, _, s =>
    some (s.calls, { s with active := (s.calls, eh) :: s.active, calls := s.calls + 1 })
  | .leave i, _, s => some ((), { s with active := s.active.filter (·.1 ≠ i) })
  | .host_port i, _, s =>
    let call := s.active.find? (·.1 == i)
    some ((), { s with reads := s.reads ++ [⟨call.isSome, call.any (·.2 ∈ s.alive)⟩] })
  | .close file, _, s => some ((), s.close file)
  | .resolve host_port cb, _, s =>
    (s.dnsStep opt (.call host_port cb)).map fun t => (s.dns.calls.length, t)
  | .lockCall i, _, s =>
    (s.dnsStep opt (.lockCall i)).map fun t => (t.dns.calls[i]?.getD .done, t)
  | .scheduleCall i, _, s => (s.dnsStep opt (.scheduleCall i)).map fun t => ((), t)
  | .answerCall i, _, s => (s.dnsStep opt (.answerCall i)).map fun t => ((), t)
  | .start, .task n, s =>
    (s.dnsStep opt (.start n)).map fun t => (some s.dns.workers.length, t)
  | .start, .nothing, s => some (none, s)
  | .lockWorker j, _, s =>
    (s.dnsStep opt (.lockWorker j)).map fun t => (t.dns.workers[j]?.getD .done, t)
  | .returnResolve j, .addresses addr, s =>
    (s.dnsStep opt (.returnResolve j addr)).map fun t => ((), t)
  | .readClock j, _, s => (s.dnsStep opt (.readClock j)).map fun t => ((), t)
  | .lockRecord j, _, s =>
    (s.dnsStep opt (.lockRecord j)).map fun t => (t.dns.workers[j]?.getD .done, t)
  | .callback j, _, s => (s.dnsStep opt (.callback j)).map fun t => ((), t)
  | .relock j, _, s => (s.dnsStep opt (.relock j)).map fun t => ((), t)
  | .schedule j, _, s => (s.dnsStep opt (.schedule j)).map fun t => ((), t)
  | .socket _, .fd fd, s => (s.open fd).map fun r => (some r.1, r.2)
  | .socket _, .nothing, s => some (none, s)
  | .connect server _, .ok ok, s => some (ok, s.use server)
  | .sockError server, .ok ok, s => some (ok, s.use server)
  | .forward client server, _, s =>
    if popsNext s.forwarder then
      (Forwarder.step k opt.forwarder s.forwarder (.dispatch 0 true)).map fun forwarder =>
        ((), (s.use client).use server |>.linked forwarder (s.links ++ [(client, server)]))
    else none
  | .link action, _, s =>
    match action with
    | .dispatch _ _ =>
      if popsNext s.forwarder then none
      else (Forwarder.step k opt.forwarder s.forwarder action).map fun forwarder =>
        ((), s.linked forwarder s.links)
    | _ => (Forwarder.step k opt.forwarder s.forwarder action).map fun forwarder =>
        ((), s.linked forwarder s.links)
  | .tick elapsed, _, s => (s.dnsStep opt (.tick elapsed)).map fun t => ((), t)
  | _, _, _ => none

/-- What an idle thread goes on with. -/
def wake : Thread → Reply A W → Shared A W → Option (Code A W)
  | .main, .nothing, _ => some (acceptNext .main)
  | .loop l, .event eh events, s =>
    if eh ∈ s.registered ∧ eh.loop = l then some (onEvent (.loop l) opt.allowed_ports events eh)
    else none
  | .loop l, .timeout eh, s =>
    if eh ∈ s.registered ∧ eh.loop = l then some (onTimeout (.loop l) opt.allowed_ports eh)
    else none
  | .loop .forwarder, .link action, _ => some (.op (.link action) fun _ => .ret)
  | .worker i, .nothing, _ =>
    if i < opt.num_dns_resolution_threads then some (next (.worker i)) else none
  | .outside, .tick elapsed, _ => some (.op (.tick elapsed) fun _ => .ret)
  | _, _, _ => none

/-- `RunProxy`, with a bound for the content of each pipe. -/
def system (A : Type) (capacity : LoopId → ℕ) :
    System (signature A W) Thread (Shared A W) (Reply A W) where
  exec := exec opt k
  owner := .loop
  capacity
  ready l s := if l = .forwarder then popsNext s.forwarder else true
  body f := run f .ret
  wake := wake opt

abbrev State (A W : Type) := Programs.State (signature A W) Thread (Shared A W)

/-- The proxy has been started, and no thread has done anything. -/
def Init (s : State A W) : Prop :=
  ∃ clock forwarder, Forwarder.Init forwarder ∧
    s = { shared := { dns := { clock }, forwarder }, holder := fun _ => none, pipes := fun _ => []
          threads := fun _ => .ret }

/-- The states of the proxy in all runs whose steps are `allowed`. -/
def ReachableIf (capacity : LoopId → ℕ)
    (allowed : State A W → Action (signature A W) Thread (Reply A W) → Prop) :
    State A W → Prop :=
  Runs.Reachable Init (Runs.Moves (step (system opt k A capacity)) allowed)

def Reachable (capacity : LoopId → ℕ) : State A W → Prop :=
  ReachableIf opt k capacity Runs.always

end Exec

end Hcproxy.Proxy
