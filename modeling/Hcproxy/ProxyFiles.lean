import Hcproxy.DnsWaiting
import Hcproxy.ForwarderSockets
import Hcproxy.ProxySteps

set_option autoImplicit false

namespace Hcproxy.Proxy

open Hcproxy.Dns (HostPort)
open Hcproxy.Forwarder (Kernel Sock Watched)
open Ownership (Owned Uses)
open Programs
open Ring (Cursor)

/-- What may have an open file. A link has the socket that it was made for. -/
inductive Owner
  | thread (t : Thread)
  | scheduled (l : LoopId)
  | handler (eh : Handler)
  | callback (cb : Callback)
  | link (h : Sock)
  deriving DecidableEq

/-- `fd_`, and the `client_fd` that the callback of a `ConnectEventHandler` has captured. -/
def Handler.files : Handler → List File
  | .parse client => [client]
  | .connect server client => [server, client]

def Function.files : Function → List File
  | .add eh => eh.files
  | .new client server => [client, server]

/-- A callback that the code of a thread has to do with: it was passed to `Resolve`, it is about to
be called there, or it is the first of those that `ProcessCacheEntry` calls. -/
inductive Job
  | none
  | arriving (i : ℕ) (cb : Callback)
  | due (i : ℕ) (cb : Callback)
  | calling (j : ℕ) (callbacks : List Callback)

/-- What the code of a thread has to do with files: those that only it can close, and the registered
handler whose method it runs. -/
structure Hand where
  holds : Multiset File := 0
  runs : Option Handler := Option.none
  job : Job := .none

variable {A W : Type}

/-- What an operation expects of the code that makes it. -/
def Hand.allows (γ : Hand) : Op A W → Prop
  | .add eh => (eh.files : Multiset File) ≤ γ.holds
  | .remove eh | .read eh => γ.runs = some eh
  | .close file => file ∈ γ.holds
  | .resolve _ cb => cb.client ∈ γ.holds ∧ γ.job = .none
  | .lockCall i => ∃ cb, γ.job = .arriving i cb
  | .answerCall i => ∃ cb, γ.job = .due i cb
  | .lockWorker _ | .lockRecord _ => γ.job = .none
  | .callback j => ∃ cb rest, γ.job = .calling j (cb :: rest)
  | .relock j => γ.job = .calling j []
  | .connect server _ => server ∈ γ.holds
  | .sockError server => ∃ client, γ.runs = some (.connect server client)
  | .forward client server => ([client, server] : Multiset File) ≤ γ.holds
  | _ => True

/-- What a worker has been given to call. -/
def Job.ofWorker (j : ℕ) : Dns.Worker Callback A → Job
  | .calling _ callbacks _ _ _ _ => .calling j callbacks
  | _ => .none

def Job.ofCall (i : ℕ) : Job → Dns.Call Callback A → Job
  | .arriving _ cb, .calling _ => .due i cb
  | _, _ => .none

def Hand.after (γ : Hand) : (o : Op A W) → o.Res → Hand
  | .accept, file => { γ with holds := file ::ₘ γ.holds }
  | .socket _, some file => { γ with holds := file ::ₘ γ.holds }
  | .add eh, _ => { γ with holds := γ.holds - eh.files }
  | .remove eh, _ => { γ with holds := eh.files + γ.holds, runs := Option.none }
  | .decRef _, _ => { γ with runs := Option.none }
  | .close file, _ => { γ with holds := γ.holds.erase file }
  | .resolve _ cb, i => { γ with holds := γ.holds.erase cb.client, job := .arriving i cb }
  | .lockCall i, r => { γ with job := γ.job.ofCall i r }
  | .answerCall _, _ =>
    match γ.job with
    | .due _ cb => { γ with holds := cb.client ::ₘ γ.holds, job := .none }
    | _ => γ
  | .lockWorker j, r | .lockRecord j, r => { γ with job := .ofWorker j r }
  | .callback _, _ =>
    match γ.job with
    | .calling j (cb :: rest) => { γ with holds := cb.client ::ₘ γ.holds, job := .calling j rest }
    | _ => γ
  | .relock _, _ => { γ with job := .none }
  | .forward client server, _ => { γ with holds := γ.holds - [client, server] }
  | _, _ => γ

/-- The file that a link was made for. -/
def linkFile (links : List (File × File)) (h : Sock) : Option File :=
  links[h.1]?.map fun link => match h.2 with
    | .client => link.1
    | .server => link.2

/-- What a link has until it closes it. -/
def linkHolds (links : List (File × File)) (isClosed : Sock → Bool) (h : Sock) : Multiset File :=
  match linkFile links h with
  | some file => if isClosed h then 0 else {file}
  | none => 0

def owners (w : World (signature A W) Thread (Shared A W)) (γ : Thread → Hand) :
    Owner → Multiset File
  | .thread t => (γ t).holds
  | .scheduled l => (w.pipes l).flatMap Function.files
  | .handler eh => if eh ∈ w.shared.registered then eh.files else 0
  | .callback cb => Multiset.replicate (w.shared.dns.waiting cb) cb.client
  | .link h => linkHolds w.shared.links w.shared.forwarder.isClosed h

/-- What a job says is so. -/
def Job.Current (dns : Dns.State Callback A) : Job → Prop
  | .none => True
  | .arriving i cb => ∃ host_port now, dns.calls[i]? = some (.locking host_port cb now)
  | .due i cb => ∃ answer, dns.calls[i]? = some (.calling answer) ∧ answer.cb = cb
  | .calling j callbacks => ∃ it addr index now seen,
    dns.workers[j]? = some (.calling it callbacks addr index now seen)

/-- The call of `Resolve` or the execution of `ProcessCacheEntry` that a job is about. -/
def Job.slot : Job → Option (ℕ ⊕ ℕ)
  | .none => Option.none
  | .arriving i _ | .due i _ => some (.inl i)
  | .calling j _ => some (.inr j)

/-- The steps of the resolver that are those of the job. -/
def Job.Claims : Job → Dns.Action Callback A → Prop
  | .none, _ => False
  | .arriving i _, a => a = .lockCall i
  | .due i _, a => a = .answerCall i
  | .calling j _, a => a = .callback j ∨ a = .relock j

/-- The handlers that threads run are registered, and their jobs are different ones. -/
structure Engaged (s : Shared A W) (γ : Thread → Hand) : Prop where
  runs : ∀ t eh, (γ t).runs = some eh → eh ∈ s.registered ∧ t = .loop eh.loop
  jobs : ∀ t, (γ t).job.Current s.dns
  once : ∀ t u slot, (γ t).job.slot = some slot → (γ u).job.slot = some slot → t = u

/-- Open files have different numbers, and files that links have closed are not open. -/
structure Numbered (s : Shared A W) : Prop where
  fds : (s.files.map File.fd).Nodup
  opened : ∀ file ∈ s.files, file.serial < s.serials
  linked : ∀ h file, linkFile s.links h = some file → file.serial < s.serials
  gone : ∀ h file, linkFile s.links h = some file → s.forwarder.isClosed h = true → file ∉ s.files

/-- The forwarder has a pair for each two sockets that it was given, and it has used none that it
had closed. -/
structure Forwards (opt : Options) (k : Kernel W) (s : Shared A (Watched W)) : Prop where
  forwarder : Forwarder.Reachable k.watched opt.forwarder s.forwarder
  pairs : s.links.length = s.forwarder.pairs.length
  log : Uses (fun _ => false) s.forwarder.world.log s.forwarder.isClosed

/-- Each open file has one owner, and no system call was made on a file that was not open. -/
structure Accounts (opt : Options) (k : Kernel W)
    (w : World (signature A (Watched W)) Thread (Shared A (Watched W))) (γ : Thread → Hand) :
    Prop where
  owned : Owned (owners w γ) (· ∈ w.shared.files)
  engaged : Engaged w.shared γ
  numbered : Numbered w.shared
  uses : ∀ u ∈ w.shared.uses, u.found = some u.file.serial
  dns : Dns.Reachable opt.dns w.shared.dns
  forwards : Forwards opt k w.shared

/-- Code closes the files that it holds, or hands them on. -/
def owning (A : Type) (opt : Options) (k : Kernel W) :
    Discipline (signature A (Watched W)) Thread (Shared A (Watched W)) Hand where
  inv := Accounts opt k
  rests _ γ := γ = {}
  pre _ γ o := γ.allows o
  post _ γ o r γ' := γ' = γ.after o r
  locks _ γ _ γ' := γ' = γ
  unlocks _ γ _ γ' := γ' = γ
  schedules _ γ _ f γ' := f.files ≤ γ.holds ∧ γ' = { γ with holds := γ.holds - f.files }
  calls _ _ _ := True

section Rules

variable {opt : Options} {k : Kernel W} {t : Thread} {γ : Hand} {next : Code A (Watched W)}

@[simp] theorem owning_ret : (owning A opt k).Follows t γ .ret ↔ γ = {} := Iff.rfl

theorem owning_op {o : Op A (Watched W)} {next : o.Res → Code A (Watched W)} (allowed : γ.allows o)
    (after : ∀ r, (owning A opt k).Follows t (γ.after o r) (next r)) :
    (owning A opt k).Follows t γ (.op o next) := by
  refine ⟨allowed, ?_⟩
  rintro r γ' rfl
  exact after r

@[simp] theorem owning_lock {m : Mutex} : (owning A opt k).Follows t γ (.lock m next) ↔
    (owning A opt k).Follows t γ next := by
  constructor
  · rintro ⟨γ', rfl, follows⟩
    exact follows
  · exact fun follows => ⟨γ, rfl, follows⟩

@[simp] theorem owning_unlock {m : Mutex} : (owning A opt k).Follows t γ (.unlock m next) ↔
    (owning A opt k).Follows t γ next := by
  constructor
  · rintro ⟨γ', rfl, follows⟩
    exact follows
  · exact fun follows => ⟨γ, rfl, follows⟩

@[simp] theorem owning_call {c : Called} : (owning A opt k).Follows t γ (.call c next) ↔
    (owning A opt k).Follows t γ next :=
  ⟨fun follows => follows.2, fun follows => ⟨trivial, follows⟩⟩

theorem owning_schedule {l : LoopId} {f : Function} (given : f.files ≤ γ.holds)
    (after : (owning A opt k).Follows t { γ with holds := γ.holds - f.files } next) :
    (owning A opt k).Follows t γ (.schedule l f next) :=
  ⟨_, ⟨given, rfl⟩, after⟩

end Rules

section Code

variable {opt : Options} {k : Kernel W} {self : Thread} {γ : Hand} {next : Code A (Watched W)}
  {m : Multiset File}

/-- A function is given all the files that it needs, and needs all that it is given. -/
theorem owning_run {f : Function} (held : γ.holds = f.files + m)
    (after : (owning A opt k).Follows self { γ with holds := m } next) :
    (owning A opt k).Follows self γ (run f next) := by
  have given : (f.files : Multiset File) ≤ γ.holds := by
    rw [held]
    exact Multiset.le_add_right _ m
  have rest : γ.holds - f.files = m := by
    rw [held, Multiset.add_comm, Multiset.add_sub_cancel_right]
  cases f with
  | add eh =>
      refine owning_op given fun _ => ?_
      show (owning A opt k).Follows self { γ with holds := γ.holds - eh.files } next
      rwa [show γ.holds - eh.files = m from rest]
  | new client server =>
      refine owning_op given fun _ => ?_
      show (owning A opt k).Follows self
        { γ with holds := γ.holds - ([client, server] : List File) } next
      rwa [show γ.holds - ([client, server] : List File) = m from rest]

theorem owning_scheduleOrRun {l : LoopId} {f : Function} (held : γ.holds = f.files + m)
    (after : (owning A opt k).Follows self { γ with holds := m } next) :
    (owning A opt k).Follows self γ (scheduleOrRun self l f next) := by
  unfold scheduleOrRun
  split
  · exact owning_run held after
  · apply owning_schedule
    · rw [held]
      exact Multiset.le_add_right _ m
    · rwa [held, Multiset.add_comm, Multiset.add_sub_cancel_right]

theorem owning_close {file : File} (held : γ.holds = file ::ₘ m)
    (after : (owning A opt k).Follows self { γ with holds := m } next) :
    (owning A opt k).Follows self γ (.op (.close file) fun _ => next) := by
  refine owning_op ?_ fun _ => ?_
  · show file ∈ γ.holds
    rw [held]
    exact Multiset.mem_cons_self file m
  · show (owning A opt k).Follows self { γ with holds := γ.holds.erase file } next
    rwa [held, Multiset.erase_cons_head]

theorem pair_add (first second : File) (m : Multiset File) :
    (([first, second] : List File) : Multiset File) + m = first ::ₘ second ::ₘ m := by
  rw [← Multiset.cons_coe, ← Multiset.cons_coe, Multiset.coe_nil, Multiset.cons_add,
    Multiset.cons_add, Multiset.zero_add]

theorem owning_connected {client server : File} (held : γ.holds = client ::ₘ server ::ₘ m)
    (after : (owning A opt k).Follows self { γ with holds := m } next) :
    (owning A opt k).Follows self γ (connected self client (some server) next) :=
  owning_scheduleOrRun (held.trans (pair_add client server m).symm) after

theorem owning_notConnected {client : File} (held : γ.holds = client ::ₘ m)
    (after : (owning A opt k).Follows self { γ with holds := m } next) :
    (owning A opt k).Follows self γ (connected self client none next) :=
  owning_close held after

theorem owning_connect (addr : Cursor A) {client : File} (held : γ.holds = client ::ₘ m)
    (after : (owning A opt k).Follows self { γ with holds := m } next) :
    (owning A opt k).Follows self γ (connect self addr client next) := by
  refine owning_op trivial fun r => ?_
  cases r with
  | none => exact owning_call.mpr (owning_notConnected held after)
  | some server =>
      refine owning_op (Multiset.mem_cons_self server γ.holds) fun ok => ?_
      cases ok with
      | false => exact owning_close rfl (owning_call.mpr (owning_notConnected held after))
      | true =>
          refine owning_op trivial fun _ => ?_
          refine owning_scheduleOrRun (m := m) ?_ after
          show server ::ₘ γ.holds = _
          rw [held]
          exact (pair_add server client m).symm

theorem owning_resolved (cb : Callback) (addr : Option (Cursor A))
    (held : γ.holds = cb.client ::ₘ m)
    (after : (owning A opt k).Follows self { γ with holds := m } next) :
    (owning A opt k).Follows self γ (resolved self cb addr next) := by
  cases addr with
  | none => exact owning_op trivial fun _ => owning_close held after
  | some addr => exact owning_connect addr held after

theorem owning_resolve (host_port : HostPort) (cb : Callback) (idle : γ.job = .none)
    (held : γ.holds = cb.client ::ₘ m)
    (after : (owning A opt k).Follows self { γ with holds := m } next) :
    (owning A opt k).Follows self γ (resolve self host_port cb next) := by
  have mine : cb.client ∈ γ.holds := by
    rw [held]
    exact Multiset.mem_cons_self _ m
  have given : γ.holds.erase cb.client = m := by
    rw [held, Multiset.erase_cons_head]
  have same : ({ γ with holds := m, job := .none } : Hand) = { γ with holds := m } := by
    rw [← idle]
  refine owning_op ⟨mine, idle⟩ fun i => owning_lock.mpr (owning_op ⟨cb, rfl⟩ fun call => ?_)
  cases call with
  | locking | done =>
      apply owning_unlock.mpr
      show (owning A opt k).Follows self
        { γ with holds := γ.holds.erase cb.client, job := .none } next
      rwa [given, same]
  | scheduling =>
      apply owning_unlock.mpr
      apply owning_lock.mpr
      refine owning_op trivial fun _ => owning_unlock.mpr ?_
      show (owning A opt k).Follows self
        { γ with holds := γ.holds.erase cb.client, job := .none } next
      rwa [given, same]
  | calling answer =>
      apply owning_unlock.mpr
      apply owning_call.mpr
      refine owning_op ⟨cb, rfl⟩ fun _ => owning_resolved cb answer.addr (m := m) ?_ ?_
      · show cb.client ::ₘ γ.holds.erase cb.client = cb.client ::ₘ m
        rw [given]
      · show (owning A opt k).Follows self { γ with holds := m, job := .none } next
        rwa [same]

theorem owning_stays {eh : Handler} : (owning A opt k).Follows self { runs := some eh }
    (.op (.decRef eh) fun _ => .ret) :=
  owning_op trivial fun _ => owning_ret.mpr rfl

theorem owning_parseFinish (allowed_ports : Finset HostPort) (client : File)
    (host_port : HostPort) : (owning A opt k).Follows self { runs := some (.parse client) }
      (parseFinish self allowed_ports client host_port) := by
  refine owning_op rfl fun _ => owning_call.mpr (owning_op trivial fun i => ?_)
  have done : (owning A opt k).Follows self {} (.op (.leave i) fun _ =>
      .op (.decRef (.parse client)) fun _ => .ret) :=
    owning_op trivial fun _ => owning_op trivial fun _ => owning_ret.mpr rfl
  unfold parsed
  split
  · exact owning_close (m := 0) rfl done
  · exact owning_resolve _ _ rfl (m := 0) rfl done

theorem owning_connectFinish (server client : File) (ok : Bool) :
    (owning A opt k).Follows self { runs := some (.connect server client) }
      (connectFinish self server client ok) := by
  have done : (owning A opt k).Follows self {}
      (.op (.decRef (.connect server client)) fun _ => .ret) :=
    owning_op trivial fun _ => owning_ret.mpr rfl
  refine owning_op rfl fun _ => ?_
  cases ok with
  | true =>
      refine owning_call.mpr (owning_connected (m := 0) ?_ done)
      exact Multiset.cons_swap server client 0
  | false => exact owning_close rfl (owning_call.mpr (owning_notConnected (m := 0) rfl done))

theorem owning_onEvent (allowed_ports : Finset HostPort) (events : Events) (eh : Handler) :
    (owning A opt k).Follows self { runs := some eh } (onEvent self allowed_ports events eh) := by
  cases eh with
  | parse client =>
      show (owning A opt k).Follows self _ (parseOnEvent self allowed_ports client events)
      unfold parseOnEvent
      split
      · exact owning_parseFinish allowed_ports client []
      · split
        · refine owning_op rfl fun request => ?_
          cases request with
          | none => exact owning_stays
          | some host_port => exact owning_parseFinish allowed_ports client host_port
        · exact owning_stays
  | connect server client =>
      show (owning A opt k).Follows self _ (connectOnEvent self server client events)
      unfold connectOnEvent
      split
      · exact owning_op ⟨client, rfl⟩ fun ok => owning_connectFinish server client ok
      · exact owning_stays

theorem owning_onTimeout (allowed_ports : Finset HostPort) (eh : Handler) :
    (owning A opt k).Follows self { runs := some eh } (onTimeout self allowed_ports eh) := by
  cases eh with
  | parse client => exact owning_parseFinish allowed_ports client []
  | connect server client => exact owning_connectFinish server client false

theorem owning_callAll (j : ℕ) (callbacks : List Callback) (addr : Option (Cursor A))
    (after : (owning A opt k).Follows self { job := .calling j [] } next) :
    (owning A opt k).Follows self { job := .calling j callbacks }
      (callAll self j callbacks addr next) := by
  induction callbacks generalizing addr with
  | nil => exact after
  | cons f rest ih =>
      apply owning_call.mpr
      refine owning_op ⟨f, rest, rfl⟩ fun _ => ?_
      exact owning_resolved f addr (m := 0) rfl (ih (Dns.advance addr))

theorem owning_scheduleNext (j : ℕ) : (owning A opt k).Follows self {} (scheduleNext j) :=
  owning_lock.mpr (owning_op trivial fun _ => owning_unlock.mpr (owning_ret.mpr rfl))

theorem owning_answerAll (j : ℕ) (after : Dns.Worker Callback A) :
    (owning A opt k).Follows self { job := .ofWorker j after } (answerAll self j after) := by
  cases after with
  | calling it callbacks addr index now seen =>
      apply owning_unlock.mpr
      apply owning_callAll j callbacks addr
      apply owning_lock.mpr
      exact owning_op rfl fun _ => owning_unlock.mpr (owning_scheduleNext j)
  | scheduling it next => exact owning_unlock.mpr (owning_scheduleNext j)
  | locking | resolving | resolved | recording | done | dangling =>
      exact owning_unlock.mpr (owning_ret.mpr rfl)

theorem owning_processCacheEntry (j : ℕ) :
    (owning A opt k).Follows self {} (processCacheEntry self j) := by
  refine owning_lock.mpr (owning_op rfl fun after => ?_)
  cases after with
  | resolving it =>
      apply owning_unlock.mpr
      refine owning_op trivial fun _ => owning_op trivial fun _ => owning_lock.mpr ?_
      exact owning_op rfl fun after => owning_answerAll j after
  | calling | scheduling | locking | resolved | recording | done | dangling =>
      exact owning_answerAll j _

theorem owning_next : (owning A opt k).Follows self {} (Proxy.next self) := by
  refine owning_lock.mpr (owning_op trivial fun taken => ?_)
  cases taken with
  | none => exact owning_unlock.mpr (owning_ret.mpr rfl)
  | some j => exact owning_unlock.mpr (owning_processCacheEntry j)

theorem owning_acceptNext : (owning A opt k).Follows self {} (acceptNext self) := by
  refine owning_op trivial fun client => owning_op trivial fun _ => ?_
  exact owning_scheduleOrRun (m := 0) rfl (owning_ret.mpr rfl)

theorem owning_body (l : LoopId) (f : Function) :
    (owning A opt k).Follows (.loop l) { holds := f.files } (run f .ret) := by
  refine owning_run (m := 0) ?_ (owning_ret.mpr rfl)
  exact (Multiset.add_zero _).symm

theorem owning_wake {t : Thread} {s : Shared A (Watched W)} {code : Code A (Watched W)}
    (woken : Woken opt s t code) : ∃ γ : Hand, (owning A opt k).Follows t γ code ∧
      (γ = {} ∨ ∃ eh, γ = { runs := some eh } ∧ eh ∈ s.registered ∧ t = .loop eh.loop) := by
  cases woken with
  | accepts => exact ⟨{}, owning_acceptNext, .inl rfl⟩
  | dispatches eh events member =>
      exact ⟨_, owning_onEvent opt.allowed_ports events eh, .inr ⟨eh, rfl, member, rfl⟩⟩
  | expires eh member =>
      exact ⟨_, owning_onTimeout opt.allowed_ports eh, .inr ⟨eh, rfl, member, rfl⟩⟩
  | works i => exact ⟨{}, owning_next, .inl rfl⟩
  | links | ticks => exact ⟨{}, owning_op trivial fun _ => owning_ret.mpr rfl, .inl rfl⟩

end Code

end Hcproxy.Proxy
