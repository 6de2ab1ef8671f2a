import Hcproxy.DnsDeliveries
import Hcproxy.Lib.Assertions
import Hcproxy.ProxyHistory
import Hcproxy.ProxyOwnership

set_option autoImplicit false

namespace Hcproxy.Proxy

open Hcproxy.Dns (HostPort)
open Hcproxy.Forwarder (Bytes Kernel Watched)
open PortFilter (onParsed)
open Programs Programs.Contract
open Ring (Cursor)

/-- A request for a tunnel: the client, the call of the parser's callback, the name that was read,
and the call of `Resolve`. -/
structure Request where
  client : File
  entered : ℕ
  host_port : HostPort
  call : ℕ

def Request.callback (r : Request) : Callback := ⟨r.client, r.entered⟩

/-- A request that was answered, and the socket that was connected to the address. -/
structure Route (A : Type) extends Request where
  addr : Cursor A
  server : File

variable {A W : Type}

def accepting (client : File) : List (Event (signature A W)) := [⟨.accept, client⟩]

def reading (client : File) (host_port : HostPort) : List (Event (signature A W)) :=
  accepting client ++ [⟨.read (.parse client), some host_port⟩]

/-- How a client comes to ask for a name. -/
def Request.events (r : Request) : List (Event (signature A W)) :=
  reading r.client r.host_port ++ [⟨.resolve r.host_port r.callback, r.call⟩]

/-- How a link is made. -/
def Route.events (r : Route A) : List (Event (signature A W)) :=
  r.toRequest.events ++ [⟨.socket r.addr, some r.server⟩, ⟨.connect r.server r.addr, true⟩,
    ⟨.sockError r.server, true⟩, ⟨.forward r.client r.server, ()⟩]

/-- The resolver has called the callback with the address. -/
def AnsweredWith (cb : Callback) (addr : Cursor A) (s : Recorded A W) : Prop :=
  ∃ b ∈ s.1.dns.answers, b.cb = cb ∧ b.addr = some addr

variable (opt : Options)

def Request.Made (r : Request) (s : Recorded A W) : Prop :=
  Happened r.events s ∧ onParsed opt.allowed_ports r.host_port = .resolves r.host_port

/-- The first `n` operations of the route were made. -/
structure Route.Taken (n : ℕ) (r : Route A) (s : Recorded A W) : Prop where
  happened : Happened (r.events.take n) s
  passes : onParsed opt.allowed_ports r.host_port = .resolves r.host_port
  answered : AnsweredWith r.callback r.addr s

/-- A route leads from the client to the server. -/
def Leads (n : ℕ) (client server : File) (s : Recorded A W) : Prop :=
  ∃ r : Route A, (r.client = client ∧ r.server = server) ∧ r.Taken opt n s

/-- What is known of a function in a pipe. -/
def Fits : Function → Recorded A W → Prop
  | .add (.parse client), s => Happened (accepting client) s
  | .add (.connect server client), s => Leads opt 5 client server s
  | .new client server, s => Leads opt 6 client server s

/-- What is known where an operation is made. -/
def Needs : Op A W → Recorded A W → Prop
  | .add eh, s => Fits opt (.add eh) s
  | .resolve host_port cb, s =>
    Happened (reading cb.client host_port) s ∧
      onParsed opt.allowed_ports host_port = .resolves host_port
  | .forward client server, s => Fits opt (.new client server) s
  | _, _ => True

/-- The names that callbacks were passed to `Resolve` with. -/
def Agrees (host : Callback → HostPort) (events : List (Event (signature A W))) : Prop :=
  ∀ host_port cb (call : ℕ), (⟨.resolve host_port cb, call⟩ : Event (signature A W)) ∈ events →
    host cb = host_port

/-- Every callback was passed to `Resolve` for the request of its client, and every handler and
every link stands where a route has come so far. -/
structure Routed (s : Recorded A W) : Prop where
  hosts : ∃ host, Agrees host s.2
  named : ∀ host, Agrees host s.2 → Dns.ReachableIf opt.dns (Dns.Named host) s.1.dns
  issued : ∀ host_port cb (call : ℕ),
    (⟨.resolve host_port cb, call⟩ : Event (signature A W)) ∈ s.2 → cb ∈ s.1.dns.issued
  asked : ∀ cb ∈ s.1.dns.issued, ∃ r : Request, r.callback = cb ∧ r.Made opt s
  registered : ∀ eh ∈ s.1.registered, Fits opt (.add eh) s
  links : ∀ link ∈ s.1.links, Leads opt 7 link.1 link.2 s

variable {opt} {k : Kernel W}

/-- An operation was made and recorded. -/
def Records (opt : Options) (k : Kernel W) (s t : Recorded A W) : Prop :=
  ∃ (o : Op A W) (r : o.Res), Ran opt k s.1 o r t.1 ∧ t.2 = s.2 ++ [⟨o, r⟩]

section Kept

variable {s t : Recorded A W} {client server : File} {n : ℕ}

theorem happened_kept (records : Records opt k s t) {events : List (Event (signature A W))}
    (happened : Happened events s) : Happened events t := by
  obtain ⟨o, r, _, history⟩ := records
  unfold Happened
  rw [history]
  exact happened.trans (List.sublist_append_left _ _)

theorem answered_kept (records : Records opt k s t) {cb : Callback} {addr : Cursor A}
    (answered : AnsweredWith cb addr s) : AnsweredWith cb addr t := by
  obtain ⟨b, given, why⟩ := answered
  refine ⟨b, ?_, why⟩
  obtain ⟨o, r, ran, _⟩ := records
  rcases ran_dns ran with same | ⟨a, stepped, _, _⟩
  · rwa [same]
  · exact Dns.answers_kept_of_moved (Dns.step_cases stepped) given

theorem taken_kept (records : Records opt k s t) {route : Route A} (taken : route.Taken opt n s) :
    route.Taken opt n t :=
  ⟨happened_kept records taken.happened, taken.passes, answered_kept records taken.answered⟩

theorem leads_kept (records : Records opt k s t) (leads : Leads opt n client server s) :
    Leads opt n client server t := by
  obtain ⟨route, ends, taken⟩ := leads
  exact ⟨route, ends, taken_kept records taken⟩

theorem fits_kept (records : Records opt k s t) (f : Function) (fits : Fits opt f s) :
    Fits opt f t := by
  cases f with
  | add eh =>
      cases eh with
      | parse client => exact happened_kept records fits
      | connect server client => exact leads_kept records fits
  | new client server => exact leads_kept records fits

/-- The next operation of the route is made. -/
theorem Route.Taken.next {route : Route A} {o : Op A W} {r : o.Res} (taken : route.Taken opt n s)
    (ran : Ran opt k s.1 o r t.1) (history : t.2 = s.2 ++ [⟨o, r⟩])
    (goes : route.events.take (n + 1) = route.events.take n ++ [⟨o, r⟩]) :
    route.Taken opt (n + 1) t := by
  refine ⟨?_, taken.passes, answered_kept ⟨o, r, ran, history⟩ taken.answered⟩
  unfold Happened
  rw [goes, history]
  exact taken.happened.append_right _

theorem Routed.dns (routed : Routed opt s) : Dns.Reachable opt.dns s.1.dns := by
  obtain ⟨host, agrees⟩ := routed.hosts
  exact (routed.named host agrees).mono fun _ _ ⟨a, _, stepped⟩ => ⟨a, trivial, stepped⟩

/-- Every operation keeps the routes. -/
theorem Routed.kept (routed : Routed opt s) {o : Op A W} {r : o.Res} (needs : Needs opt o s)
    (ran : Ran opt k s.1 o r t.1) (history : t.2 = s.2 ++ [⟨o, r⟩]) : Routed opt t := by
  have records : Records opt k s t := ⟨o, r, ran, history⟩
  have old : ∀ {host : Callback → HostPort}, Agrees host t.2 → Agrees host s.2 := by
    intro host agrees host_port cb call member
    apply agrees host_port cb call
    rw [history]
    exact List.mem_append_left _ member
  have last : ∀ {host_port cb} {call : ℕ},
      (⟨.resolve host_port cb, call⟩ : Event (signature A W)) ∈ t.2 →
        (⟨.resolve host_port cb, call⟩ : Event (signature A W)) ∈ s.2 ∨
          o = .resolve host_port cb := by
    intro host_port cb call member
    rw [history] at member
    rcases List.mem_append.mp member with member | member
    · exact .inl member
    · cases List.mem_singleton.mp member
      exact .inr rfl
  have issued : ∀ cb ∈ s.1.dns.issued, cb ∈ t.1.dns.issued := by
    rcases ran_dns ran with same | ⟨a, stepped, _, _⟩
    · rw [same]
      exact fun _ member => member
    · exact Dns.issued_kept (Dns.step_cases stepped)
  refine ⟨?_, ?_, ?_, ?_, ?_, ?_⟩
  · obtain ⟨host, agrees⟩ := routed.hosts
    by_cases resolves : ∃ host_port cb, o = .resolve host_port cb
    · obtain ⟨host_port, cb, rfl⟩ := resolves
      refine ⟨Function.update host cb host_port, ?_⟩
      intro name other call member
      rcases last member with member | same
      · rw [Function.update_of_ne]
        · exact agrees name other call member
        · rintro rfl
          exact (ran_resolve ran).1 (routed.issued name other call member)
      · cases same
        exact Function.update_self ..
    · refine ⟨host, fun host_port cb call member => ?_⟩
      rcases last member with member | same
      · exact agrees host_port cb call member
      · exact absurd ⟨host_port, cb, same⟩ resolves
  · intro host agrees
    have before := routed.named host (old agrees)
    rcases ran_dns ran with same | ⟨a, stepped, only, _⟩
    · rwa [same]
    · refine .move before ⟨a, ?_, stepped⟩
      cases a with
      | call host_port cb =>
          cases only host_port cb rfl
          apply agrees host_port cb r
          rw [history]
          exact List.mem_append_right _ (List.mem_singleton_self _)
      | _ => trivial
  · intro host_port cb call member
    rcases last member with member | rfl
    · exact issued cb (routed.issued host_port cb call member)
    · rw [(ran_resolve ran).2.2]
      exact List.mem_append_right _ (List.mem_singleton_self cb)
  · intro cb member
    by_cases known : cb ∈ s.1.dns.issued
    · obtain ⟨request, same, made, passes⟩ := routed.asked cb known
      exact ⟨request, same, happened_kept records made, passes⟩
    · have resolves : ∃ host_port, o = .resolve host_port cb := by
        rcases ran_dns ran with same | ⟨a, stepped, only, _⟩
        · rw [same] at member
          exact absurd member known
        · obtain ⟨host_port, rfl⟩ :=
            (Dns.issued_of_moved (Dns.step_cases stepped) cb member).resolve_left known
          exact ⟨host_port, only host_port cb rfl⟩
      obtain ⟨host_port, rfl⟩ := resolves
      obtain ⟨happened, passes⟩ := needs
      refine ⟨⟨cb.client, cb.host_port, host_port, r⟩, rfl, ?_, passes⟩
      unfold Happened
      rw [history]
      exact happened.append_right _
  · intro eh member
    rcases ran_registered ran eh member with member | rfl
    · exact fits_kept records _ (routed.registered eh member)
    · exact fits_kept records _ needs
  · intro link member
    rcases ran_links ran link member with member | rfl
    · exact leads_kept records (routed.links link member)
    · obtain ⟨route, ends, taken⟩ := needs
      refine ⟨route, ends, taken.next ran history ?_⟩
      rw [← ends.1, ← ends.2]
      rfl

end Kept

section Contract

variable {capacity : LoopId → ℕ}

theorem stable_of_kept {P : Recorded A W → Prop}
    (kept : ∀ s t, Routed opt s → Records opt k s t → P s → P t) :
    Stable (recording A opt k capacity) (Routed opt) P := by
  rintro s t ⟨before, _, o, e, r, ran⟩ holds
  exact kept s t before ⟨o, r, records_of_exec ran⟩ holds

variable (A) (opt) (k) (capacity)

/-- Routes are kept by operations that are made where they lead. -/
def routing : Contract (recording A opt k capacity) where
  inv := Routed opt
  pre := Needs opt
  fits := Fits opt
  kept _ _ _ _ _ routed needs ran :=
    routed.kept needs (records_of_exec ran).1 (records_of_exec ran).2
  stable f := stable_of_kept fun _ _ _ records => fits_kept records f

end Contract

section Code

variable {capacity : LoopId → ℕ} {self : Thread} {next : Code A W}

/-- Code that is run where `P` is known. -/
abbrev Follows (self : Thread) (P : (routing A opt k capacity).Assertion) (code : Code A W) :
    Prop :=
  (routing A opt k capacity).asserting.Follows self P code

theorem stable_dns {P : Dns.State Callback A → Prop}
    (kept : ∀ s t a, Dns.SingleTask s → Dns.Moved opt.dns s a t → P s → P t) :
    Stable (recording A opt k capacity) (Routed opt) fun s => P s.1.dns := by
  apply stable_of_kept
  rintro s t routed ⟨o, r, ran, _⟩ holds
  rcases ran_dns ran with same | ⟨a, stepped, _, _⟩
  · rwa [same]
  · exact kept _ _ a routed.dns.singleTask (Dns.step_cases stepped) holds

/-- Nothing is known. -/
def nothing : (routing A opt k capacity).Assertion := ⟨fun _ => True, stable_const True⟩

/-- The socket was made for the address that the client's callback was called with. -/
def opened (addr : Cursor A) (client server : File) : (routing A opt k capacity).Assertion :=
  ⟨fun s => ∃ r : Route A, (r.client = client ∧ r.server = server ∧ r.addr = addr) ∧
      r.Taken opt 4 s,
    .exists fun _ => (stable_const _).and (stable_of_kept fun _ _ _ records => taken_kept records)⟩

/-- What an answer of `socket` says. -/
def socketed (addr : Cursor A) (client : File) : Option File → (routing A opt k capacity).Assertion
  | none => nothing
  | some server => opened addr client server

/-- What an answer of `connect` says. -/
def connects (client server : File) : Bool → (routing A opt k capacity).Assertion
  | false => nothing
  | true => .fits (.add (.connect server client))

/-- What `SO_ERROR` says. -/
def connectedWith (client server : File) : Bool → (routing A opt k capacity).Assertion
  | false => nothing
  | true => .fits (.new client server)

/-- What a look at the bytes of a client says. -/
def requested (client : File) : Option HostPort → (routing A opt k capacity).Assertion
  | none => nothing
  | some host_port => ⟨Happened (reading client host_port), stable_happened⟩

def called (call : ℕ) (cb : Callback) : (routing A opt k capacity).Assertion :=
  ⟨fun s => Dns.CallOf call cb s.1.dns,
    stable_dns fun _ _ _ _ moved => Dns.callOf_kept moved⟩

def gives (call : ℕ) (cb : Callback) (answer : Dns.Answer Callback A) :
    (routing A opt k capacity).Assertion :=
  ⟨fun s => answer.cb = cb ∧ Dns.Gives call answer s.1.dns,
    (stable_const _).and (stable_dns fun _ _ _ _ moved => Dns.gives_kept moved)⟩

def given (cb : Callback) (answer : Dns.Answer Callback A) :
    (routing A opt k capacity).Assertion :=
  ⟨fun s => answer.cb = cb ∧ answer ∈ s.1.dns.answers,
    (stable_const _).and (stable_dns fun _ _ _ _ moved => Dns.answers_kept_of_moved moved)⟩

/-- What a call of `Resolve` has found under the mutex. -/
def looked (call : ℕ) (cb : Callback) : Dns.Call Callback A → (routing A opt k capacity).Assertion
  | .calling answer => gives call cb answer
  | _ => nothing

def serves (j : ℕ) (answers : List (Dns.Answer Callback A)) (m : ℕ) :
    (routing A opt k capacity).Assertion :=
  ⟨fun s => Dns.Serves j answers m s.1.dns,
    stable_dns fun _ _ _ single moved => Dns.serves_kept single moved⟩

variable {P : (routing A opt k capacity).Assertion}

theorem routing_scheduleOrRun {l : LoopId} {f : Function}
    (fits : ∀ s, Routed opt s → P.1 s → Fits opt f s) (after : Follows self P next) :
    Follows self P (scheduleOrRun self l f next) := by
  unfold scheduleOrRun
  split
  · cases f with
    | add eh => exact asserting_op_same fits fun _ => after
    | new client server => exact asserting_op_same fits fun _ => after
  · exact asserting_schedule fits after

theorem routing_connected (client : File) (server : Option File)
    (leads : ∀ socket, server = some socket → ∀ s, Routed opt s → P.1 s →
      Leads opt 6 client socket s)
    (after : Follows self P next) : Follows self P (connected self client server next) := by
  cases server with
  | none => exact asserting_op_same (fun _ _ _ => trivial) fun _ => after
  | some socket => exact routing_scheduleOrRun (leads socket rfl) after

/-- The socket of an address that a callback was called with. -/
theorem taken_socket {s t : Recorded A W} {cb : Callback} {addr : Cursor A} {server : File}
    (routed : Routed opt s) (answered : AnsweredWith cb addr s)
    (ran : Ran opt k s.1 (.socket addr) (some server) t.1)
    (history : t.2 = s.2 ++ [⟨.socket addr, some server⟩]) :
    ∃ r : Route A, (r.client = cb.client ∧ r.server = server ∧ r.addr = addr) ∧
      r.Taken opt 4 t := by
  have issued : cb ∈ s.1.dns.issued := by
    obtain ⟨b, member, rfl, _⟩ := answered
    exact Dns.issued_of_answer routed.dns member
  obtain ⟨request, rfl, made, passes⟩ := routed.asked cb issued
  have taken : Route.Taken opt 3 ⟨request, addr, server⟩ s := ⟨made, passes, answered⟩
  exact ⟨⟨request, addr, server⟩, ⟨rfl, rfl, rfl⟩, taken.next ran history rfl⟩

theorem routing_connect (addr : Cursor A) (cb : Callback)
    (answered : ∀ s, Routed opt s → P.1 s → AnsweredWith cb addr s) (after : Follows self P next) :
    Follows self P (connect self addr cb.client next) := by
  have failed : Follows self P (.call .connected (connected self cb.client none next)) :=
    asserting_call.mpr (routing_connected _ none (by simp) after)
  refine asserting_learn (fun _ _ _ => trivial) (socketed addr cb.client) ?_ ?_
  · intro s e r t before _ known ran
    cases r with
    | none => trivial
    | some server =>
        obtain ⟨ran, history⟩ := records_of_exec ran
        exact taken_socket before (answered s before known) ran history
  intro r
  cases r with
  | none => exact asserting_mono (fun s holds => holds.1) failed
  | some server =>
      refine asserting_learn (fun _ _ _ => trivial) (connects cb.client server) ?_ ?_
      · intro s e r t before _ known ran
        cases r with
        | false => trivial
        | true =>
            obtain ⟨ran, history⟩ := records_of_exec ran
            obtain ⟨route, ⟨client, server, rfl⟩, taken⟩ := known.2
            refine ⟨route, ⟨client, server⟩, taken.next ran history ?_⟩
            subst server
            rfl
      intro ok
      cases ok with
      | false =>
          refine asserting_op_same (fun _ _ _ => trivial) fun _ => ?_
          exact asserting_mono (fun s holds => holds.1.1) failed
      | true =>
          refine asserting_op_same (fun _ _ _ => trivial) fun _ => ?_
          apply routing_scheduleOrRun
          · exact fun s _ holds => holds.2
          · exact asserting_mono (fun s holds => holds.1.1) after

theorem routing_resolved (cb : Callback) (addr : Option (Cursor A))
    (answered : ∀ q, addr = some q → ∀ s, Routed opt s → P.1 s → AnsweredWith cb q s)
    (after : Follows self P next) : Follows self P (resolved self cb addr next) := by
  cases addr with
  | none =>
      refine asserting_op_same (fun _ _ _ => trivial) fun _ => ?_
      exact asserting_op_same (fun _ _ _ => trivial) fun _ => after
  | some addr => exact routing_connect addr cb (answered addr rfl) after

theorem answered_of_given {cb : Callback} {answer : Dns.Answer Callback A} {s : Recorded A W}
    (known : answer.cb = cb ∧ answer ∈ s.1.dns.answers) :
    ∀ q, answer.addr = some q → AnsweredWith cb q s :=
  fun _ some => ⟨answer, known.2, known.1, some⟩

/-- What a call of `Resolve` finds is for its callback. -/
theorem looked_of_ran {s t : Recorded A W} {call : ℕ} {cb : Callback} {c : Dns.Call Callback A}
    (known : Dns.CallOf call cb s.1.dns) (ran : Ran opt k s.1 (.lockCall call) c t.1) :
    (looked call cb c : (routing A opt k capacity).Assertion).1 t := by
  cases ran with
  | lockCall stepped =>
      obtain ⟨dns, moved, same⟩ := dnsStep_eq stepped
      obtain ⟨c, found, isFor⟩ := Dns.callOf_kept (Dns.step_cases moved) known
      have now : t.1.dns.calls[call]? = some c := by
        rw [same]
        exact found
      rw [now]
      cases c with
      | calling answer => exact ⟨isFor, .inl now⟩
      | locking | scheduling | done => trivial

theorem routing_resolve (host_port : HostPort) (cb : Callback)
    (needs : ∀ s, Routed opt s → P.1 s → Needs opt (.resolve host_port cb) s)
    (after : Follows self P next) : Follows self P (resolve self host_port cb next) := by
  refine asserting_learn needs (fun call => called call cb) ?_ fun call => ?_
  · intro s e call t _ _ _ ran
    obtain ⟨fresh, rfl, same⟩ := ran_resolve (records_of_exec ran).1
    refine ⟨.locking host_port cb s.1.dns.clock, ?_, rfl⟩
    rw [same]
    exact List.getElem?_concat_length
  apply asserting_lock.mpr
  refine asserting_learn (fun _ _ _ => trivial) (looked call cb) ?_ fun c => ?_
  · intro s e c t _ _ known ran
    exact looked_of_ran known.2 (records_of_exec ran).1
  have after : Follows self ((P.and (called call cb)).and (looked call cb c)) next :=
    asserting_mono (fun s holds => holds.1.1) after
  cases c with
  | locking | done => exact asserting_unlock.mpr after
  | scheduling =>
      apply asserting_unlock.mpr
      apply asserting_lock.mpr
      refine asserting_op_same (fun _ _ _ => trivial) fun _ => ?_
      exact asserting_unlock.mpr after
  | calling answer =>
      apply asserting_unlock.mpr
      apply asserting_call.mpr
      refine asserting_learn (fun _ _ _ => trivial) (fun _ => given cb answer) ?_ fun _ => ?_
      · intro s e r t before _ known ran
        refine ⟨known.2.1, ?_⟩
        cases (records_of_exec ran).1 with
        | answerCall stepped =>
            obtain ⟨dns, moved, same⟩ := dnsStep_eq stepped
            rw [same]
            exact known.2.2.called before.dns.singleTask (Dns.step_cases moved)
      · apply routing_resolved
        · exact fun q some s _ holds => answered_of_given holds.2 q some
        · exact asserting_mono (fun s holds => holds.1) after

theorem routing_parsed (entered : ℕ) (client : File) (host_port : HostPort)
    (read : ∀ s, P.1 s → onParsed opt.allowed_ports host_port = .resolves host_port →
      Happened (reading client host_port) s) (after : Follows self P next) :
    Follows self P (parsed self opt.allowed_ports entered client host_port next) := by
  unfold parsed
  split
  · exact asserting_op_same (fun _ _ _ => trivial) fun _ => after
  · rename_i name passes
    have same : name = host_port := by
      unfold PortFilter.onParsed at passes
      split at passes
      · cases passes
      · cases passes
        rfl
    subst same
    apply routing_resolve name ⟨client, entered⟩ _ after
    exact fun s _ holds => ⟨read s holds passes, passes⟩

theorem routing_parseFinish (client : File) (host_port : HostPort)
    (read : ∀ s, P.1 s → onParsed opt.allowed_ports host_port = .resolves host_port →
      Happened (reading client host_port) s) :
    Follows self P (parseFinish self opt.allowed_ports client host_port) := by
  refine asserting_op_same (fun _ _ _ => trivial) fun _ => ?_
  apply asserting_call.mpr
  refine asserting_op_same (fun _ _ _ => trivial) fun entered => ?_
  apply routing_parsed entered client host_port read
  refine asserting_op_same (fun _ _ _ => trivial) fun _ => ?_
  refine asserting_op_same (fun _ _ _ => trivial) fun _ => ?_
  exact asserting_ret.mpr trivial

theorem routing_stays {eh : Handler} : Follows self P (.op (.decRef eh) fun _ => .ret) := by
  refine asserting_op_same (fun _ _ _ => trivial) fun _ => ?_
  exact asserting_ret.mpr trivial

/-- Without a request there is nothing to resolve. -/
theorem not_resolves_nil {allowed_ports : Finset HostPort} :
    onParsed allowed_ports [] ≠ .resolves [] := by
  simp [PortFilter.onParsed]

theorem routing_connectFinish (server client : File) (ok : Bool)
    (leads : ok = true → ∀ s, P.1 s → Leads opt 6 client server s) :
    Follows self P (connectFinish self server client ok) := by
  refine asserting_op_same (fun _ _ _ => trivial) fun _ => ?_
  cases ok with
  | true =>
      apply asserting_call.mpr
      apply routing_connected client (some server)
      · rintro socket same s _ holds
        cases same
        exact leads rfl s holds
      · exact routing_stays
  | false =>
      refine asserting_op_same (fun _ _ _ => trivial) fun _ => ?_
      apply asserting_call.mpr
      exact routing_connected client none (by simp) routing_stays

theorem routing_onEvent (events : Events) (eh : Handler)
    (fits : ∀ s, P.1 s → Fits opt (.add eh) s) :
    Follows self P (onEvent self opt.allowed_ports events eh) := by
  cases eh with
  | parse client =>
      show Follows self _ (parseOnEvent self opt.allowed_ports client events)
      unfold parseOnEvent
      split
      · exact routing_parseFinish client [] fun _ _ passes => absurd passes not_resolves_nil
      · split
        · refine asserting_learn (fun _ _ _ => trivial) (requested client) ?_ fun request => ?_
          · intro s e r t _ _ known ran
            cases r with
            | none => trivial
            | some host_port =>
                show Happened _ t
                unfold Happened
                rw [(records_of_exec ran).2]
                exact List.Sublist.append_right (fits s known) _
          · cases request with
            | none => exact routing_stays
            | some host_port => exact routing_parseFinish client host_port fun s holds _ => holds.2
        · exact routing_stays
  | connect server client =>
      show Follows self _ (connectOnEvent self server client events)
      unfold connectOnEvent
      split
      · refine asserting_learn (fun _ _ _ => trivial) (connectedWith client server) ?_ fun ok => ?_
        · intro s e r t _ _ known ran
          cases r with
          | false => trivial
          | true =>
              obtain ⟨ran, history⟩ := records_of_exec ran
              obtain ⟨route, ⟨client, server⟩, taken⟩ := fits s known
              refine ⟨route, ⟨client, server⟩, taken.next ran history ?_⟩
              subst server
              rfl
        · apply routing_connectFinish server client ok
          rintro rfl s holds
          exact holds.2
      · exact routing_stays

theorem routing_onTimeout (eh : Handler) :
    Follows self P (onTimeout self opt.allowed_ports eh) := by
  cases eh with
  | parse client =>
      exact routing_parseFinish client [] fun _ _ passes => absurd passes not_resolves_nil
  | connect server client => exact routing_connectFinish server client false (by simp)

/-- The callbacks of an execution of `ProcessCacheEntry` are called with what the resolver has
answered. -/
theorem routing_callAll (j : ℕ) {answers : List (Dns.Answer Callback A)} {callbacks : List Callback}
    {addr : Option (Cursor A)} {m it index now : ℕ} {seen : List (Dns.Lookup A)}
    (left : answers.drop m = Dns.answersTo callbacks addr it index now seen)
    (known : ∀ s, P.1 s → Dns.Serves j answers m s.1.dns)
    (after : ∀ Q : (routing A opt k capacity).Assertion, Follows self Q next) :
    Follows self P (callAll self j callbacks addr next) := by
  induction callbacks generalizing P addr m index with
  | nil => exact after P
  | cons cb rest ih =>
      have first : answers[m]? = some ⟨cb, addr, it, index, now, seen⟩ := by
        rw [← List.head?_drop, left]
        rfl
      have others : answers.drop (m + 1) =
          Dns.answersTo rest (Dns.advance addr) it (index + 1) now seen := by
        rw [← List.drop_drop, left]
        rfl
      apply asserting_call.mpr
      refine asserting_op (fun _ _ _ => trivial) (fun _ => serves j answers (m + 1)) ?_
        fun _ => ?_
      · intro s e r t before _ holds ran
        cases (records_of_exec ran).1 with
        | callback stepped =>
            obtain ⟨dns, moved, same⟩ := dnsStep_eq stepped
            show Dns.Serves j answers (m + 1) t.1.dns
            rw [same]
            exact (known s holds).called before.dns.singleTask (Dns.step_cases moved)
              (List.getElem?_eq_some_iff.mp first).1
      · apply routing_resolved
        · intro q some s _ holds
          exact ⟨_, Dns.Serves.mem holds (Nat.lt_succ_self m) first, rfl, some⟩
        · exact ih others fun _ holds => holds

theorem routing_scheduleNext (j : ℕ) : Follows self P (scheduleNext j) := by
  apply asserting_lock.mpr
  refine asserting_op_same (fun _ _ _ => trivial) fun _ => ?_
  exact asserting_unlock.mpr (asserting_ret.mpr trivial)

theorem routing_answerAll (j : ℕ) (after : Dns.Worker Callback A)
    (known : ∀ s, P.1 s → Dns.Serves j after.answers 0 s.1.dns) :
    Follows self P (answerAll self j after) := by
  cases after with
  | calling it callbacks addr index now seen =>
      apply asserting_unlock.mpr
      refine routing_callAll j rfl known fun _ => ?_
      apply asserting_lock.mpr
      refine asserting_op_same (fun _ _ _ => trivial) fun _ => ?_
      exact asserting_unlock.mpr (routing_scheduleNext j)
  | scheduling it next => exact asserting_unlock.mpr (routing_scheduleNext j)
  | locking | resolving | resolved | recording | done | dangling =>
      exact asserting_unlock.mpr (asserting_ret.mpr trivial)

/-- What an execution of `ProcessCacheEntry` has yet to answer. -/
theorem serves_worker {dns : Dns.State Callback A} (j : ℕ) :
    Dns.Serves j (dns.workers[j]?.getD .done).answers 0 dns := by
  refine ⟨[], _, rfl, Nat.zero_le _, nofun, fun more => ?_⟩
  cases found : dns.workers[j]? with
  | none =>
      rw [found] at more
      exact absurd rfl more
  | some w => exact ⟨w, rfl, rfl⟩

theorem routing_processCacheEntry (j : ℕ) : Follows self P (processCacheEntry self j) := by
  apply asserting_lock.mpr
  refine asserting_op (fun _ _ _ => trivial) (fun after => serves j after.answers 0) ?_
    fun after => ?_
  · intro s e r t _ _ _ ran
    cases (records_of_exec ran).1 with
    | lockWorker stepped => exact serves_worker j
  cases after with
  | resolving it =>
      apply asserting_unlock.mpr
      refine asserting_op_same (fun _ _ _ => trivial) fun _ => ?_
      refine asserting_op_same (fun _ _ _ => trivial) fun _ => ?_
      apply asserting_lock.mpr
      refine asserting_op (fun _ _ _ => trivial) (fun after => serves j after.answers 0) ?_
        fun after => routing_answerAll j after fun _ holds => holds
      intro s e r t _ _ _ ran
      cases (records_of_exec ran).1 with
      | lockRecord stepped => exact serves_worker j
  | locking | resolved | recording | calling | scheduling | done | dangling =>
      exact routing_answerAll j _ fun _ holds => holds

theorem routing_next : Follows self P (Proxy.next self) := by
  apply asserting_lock.mpr
  refine asserting_op_same (fun _ _ _ => trivial) fun started => ?_
  cases started with
  | none => exact asserting_unlock.mpr (asserting_ret.mpr trivial)
  | some j => exact asserting_unlock.mpr (routing_processCacheEntry j)

theorem routing_acceptNext : Follows self P (acceptNext self) := by
  refine asserting_learn (fun _ _ _ => trivial)
    (fun client => .fits (.add (.parse client))) ?_ fun client => ?_
  · intro s e client t _ _ _ ran
    show Happened _ t
    unfold Happened
    rw [(records_of_exec ran).2]
    exact List.sublist_append_right _ _
  · refine asserting_op_same (fun _ _ _ => trivial) fun _ => ?_
    apply routing_scheduleOrRun
    · exact fun s _ holds => holds.2
    · exact asserting_ret.mpr trivial

theorem routing_body (l : LoopId) (f : Function) :
    (routing A opt k capacity).asserting.Follows (.loop l) (.fits f) (run f .ret) := by
  cases f with
  | add eh =>
      exact asserting_op_same (fun _ _ known => known) fun _ =>
        asserting_ret.mpr trivial
  | new client server =>
      exact asserting_op_same (fun _ _ known => known) fun _ =>
        asserting_ret.mpr trivial

theorem routing_wake {t : Thread} {s : Recorded A W} {code : Code A W} (routed : Routed opt s)
    (woken : Woken opt s.1 t code) :
    ∃ P : (routing A opt k capacity).Assertion, P.1 s ∧ Follows t P code := by
  cases woken with
  | accepts => exact ⟨nothing, trivial, routing_acceptNext⟩
  | dispatches eh events member =>
      refine ⟨.fits (.add eh), routed.registered eh member, ?_⟩
      exact routing_onEvent events eh fun _ holds => holds
  | expires eh member =>
      exact ⟨.fits (.add eh), routed.registered eh member, routing_onTimeout eh⟩
  | links | ticks =>
      refine ⟨nothing, trivial, asserting_op_same (fun _ _ _ => trivial) fun _ => ?_⟩
      exact asserting_ret.mpr trivial
  | works => exact ⟨nothing, trivial, routing_next⟩

end Code

variable {capacity : LoopId → ℕ}

theorem routed_of_history {s : Programs.State (signature A W) Thread (Recorded A W)}
    (run : History opt k capacity s) : Routed opt s.shared := by
  refine (routing A opt k capacity).reachable_inv routing_body ?_ ?_ run
  · intro t e s p routed woken
    exact routing_wake routed (wake_cases woken)
  · rintro ⟨⟨⟨shared, events⟩, holder, pipes⟩, threads⟩ ⟨rfl, clock, forwarder, _, same⟩
    cases same
    refine ⟨⟨⟨fun _ => [], nofun⟩, ?_, nofun, nofun, nofun, nofun⟩, fun _ => rfl, fun _ => rfl⟩
    exact fun _ _ => .start ⟨clock, rfl⟩

/-- The sockets of a link belong together. In this order, before the link was made, its client was
accepted, a name was read from that client, which passed the filter, and was given to the resolver
for that client, and its server was opened for an address, connected to it and found without an
error. The resolver has answered that call with that address, which the last successful lookup of
that very name has returned. -/
theorem links_routed {s : Programs.State (signature A W) Thread (Recorded A W)}
    (run : History opt k capacity s) : ∀ link ∈ s.shared.1.links, ∃ r : Route A,
      link = (r.client, r.server) ∧ r.events.Sublist s.shared.2 ∧
        onParsed opt.allowed_ports r.host_port = .resolves r.host_port ∧
        ∃ b ∈ s.shared.1.dns.answers, b.cb = r.callback ∧ b.addr = some r.addr ∧
          s.shared.1.dns.key b.node = some r.host_port ∧
          ∃ l, Dns.latest b.seen = some l ∧ l.Gave r.addr := by
  have routed := routed_of_history run
  intro link member
  obtain ⟨r, ⟨client, server⟩, taken⟩ := routed.links link member
  obtain ⟨host, agrees⟩ := routed.hosts
  obtain ⟨b, given, mine, addr⟩ := taken.answered
  have resolved : (⟨.resolve r.host_port r.callback, r.call⟩ : Event (signature A W)) ∈
      s.shared.2 := by
    apply taken.happened.subset
    exact .tail _ (.tail _ (.head _))
  obtain ⟨key, source⟩ := Dns.source_of_answer (routed.named host agrees) given addr
  rw [mine, agrees _ _ _ resolved] at key
  exact ⟨r, by rw [client, server], taken.happened, taken.passes, b, given, mine, addr, key, source⟩

/-- The history of a tunnel. -/
def tunneledHistory : Programs.State (signature ℕ (Watched Bytes)) Thread
    (Recorded ℕ (Watched Bytes)) :=
  (Runs.replay (step (recording ℕ onePort Forwarder.eager.watched fun _ => 1))
    { unused with shared := (unused.shared, []) } tunnel).get (by decide +kernel)

theorem tunneledHistory_run :
    History onePort Forwarder.eager.watched (fun _ => 1) tunneledHistory :=
  Runs.replay_reachable _ (.start ⟨rfl, 0, _, ⟨_, _, _, rfl⟩, rfl⟩) (Option.some_get _).symm

theorem links_routed_tunneled : tunneledHistory.shared.1.links = [(⟨5, 0⟩, ⟨6, 1⟩)] ∧
    ∀ link ∈ tunneledHistory.shared.1.links, ∃ r : Route ℕ,
      link = (r.client, r.server) ∧ r.events.Sublist tunneledHistory.shared.2 ∧
        onParsed onePort.allowed_ports r.host_port = .resolves r.host_port ∧
        ∃ b ∈ tunneledHistory.shared.1.dns.answers, b.cb = r.callback ∧ b.addr = some r.addr ∧
          tunneledHistory.shared.1.dns.key b.node = some r.host_port ∧
          ∃ l, Dns.latest b.seen = some l ∧ l.Gave r.addr :=
  ⟨by decide +kernel, links_routed tunneledHistory_run⟩

end Hcproxy.Proxy
