import Hcproxy.Proxy

set_option autoImplicit false

namespace Hcproxy.Proxy

open Hcproxy.Dns (HostPort)
open Hcproxy.Forwarder (Kernel)
open Ring (Cursor)

variable {A W : Type}

/-- Everything that an operation can do, with the conditions under which it does it. -/
inductive Ran (opt : Options) (k : Kernel W) (s : Shared A W) :
    (o : Op A W) → o.Res → Shared A W → Prop
  | accept {fd : ℕ} {file : File} {t : Shared A W} (opened : s.open fd = some (file, t)) :
    Ran opt k s .accept file t
  | new (eh : Handler) : Ran opt k s (.new eh) () { s with alive := eh :: s.alive }
  | add {eh : Handler} (absent : eh ∉ s.registered) :
    Ran opt k s (.add eh) () { s.use eh.fd with registered := eh :: s.registered }
  | remove {eh : Handler} (member : eh ∈ s.registered) :
    Ran opt k s (.remove eh) () { s.use eh.fd with registered := s.registered.filter (· ≠ eh) }
  | stays {eh : Handler} (member : eh ∈ s.registered) : Ran opt k s (.decRef eh) () s
  | deleted {eh : Handler} (absent : eh ∉ s.registered) :
    Ran opt k s (.decRef eh) () { s with alive := s.alive.filter (· ≠ eh) }
  | read (eh : Handler) (host_port : Option HostPort) :
    Ran opt k s (.read eh) host_port (s.use eh.fd)
  | enter (eh : Handler) :
    Ran opt k s (.enter eh) s.calls { s with active := (s.calls, eh) :: s.active, calls := s.calls + 1 }
  | leave (i : ℕ) : Ran opt k s (.leave i) () { s with active := s.active.filter (·.1 ≠ i) }
  | host_port (i : ℕ) : Ran opt k s (.host_port i) () { s with reads := s.reads ++
    [⟨(s.active.find? (·.1 == i)).isSome, (s.active.find? (·.1 == i)).any (·.2 ∈ s.alive)⟩] }
  | close (file : File) : Ran opt k s (.close file) () (s.close file)
  | resolve {host_port : HostPort} {cb : Callback} {t : Shared A W}
    (stepped : s.dnsStep opt (.call host_port cb) = some t) :
    Ran opt k s (.resolve host_port cb) s.dns.calls.length t
  | lockCall {i : ℕ} {t : Shared A W} (stepped : s.dnsStep opt (.lockCall i) = some t) :
    Ran opt k s (.lockCall i) (t.dns.calls[i]?.getD .done) t
  | scheduleCall {i : ℕ} {t : Shared A W} (stepped : s.dnsStep opt (.scheduleCall i) = some t) :
    Ran opt k s (.scheduleCall i) () t
  | answerCall {i : ℕ} {t : Shared A W} (stepped : s.dnsStep opt (.answerCall i) = some t) :
    Ran opt k s (.answerCall i) () t
  | start {n : ℕ} {t : Shared A W} (stepped : s.dnsStep opt (.start n) = some t) :
    Ran opt k s .start (some s.dns.workers.length) t
  | idle : Ran opt k s .start none s
  | lockWorker {j : ℕ} {t : Shared A W} (stepped : s.dnsStep opt (.lockWorker j) = some t) :
    Ran opt k s (.lockWorker j) (t.dns.workers[j]?.getD .done) t
  | returnResolve {j : ℕ} {addr : Option { items : List A // items ≠ [] }} {t : Shared A W}
    (stepped : s.dnsStep opt (.returnResolve j addr) = some t) :
    Ran opt k s (.returnResolve j) () t
  | readClock {j : ℕ} {t : Shared A W} (stepped : s.dnsStep opt (.readClock j) = some t) :
    Ran opt k s (.readClock j) () t
  | lockRecord {j : ℕ} {t : Shared A W} (stepped : s.dnsStep opt (.lockRecord j) = some t) :
    Ran opt k s (.lockRecord j) (t.dns.workers[j]?.getD .done) t
  | callback {j : ℕ} {t : Shared A W} (stepped : s.dnsStep opt (.callback j) = some t) :
    Ran opt k s (.callback j) () t
  | relock {j : ℕ} {t : Shared A W} (stepped : s.dnsStep opt (.relock j) = some t) :
    Ran opt k s (.relock j) () t
  | schedule {j : ℕ} {t : Shared A W} (stepped : s.dnsStep opt (.schedule j) = some t) :
    Ran opt k s (.schedule j) () t
  | socket {addr : Cursor A} {fd : ℕ} {file : File} {t : Shared A W}
    (opened : s.open fd = some (file, t)) : Ran opt k s (.socket addr) (some file) t
  | noSocket (addr : Cursor A) : Ran opt k s (.socket addr) none s
  | connect (server : File) (addr : Cursor A) (ok : Bool) :
    Ran opt k s (.connect server addr) ok (s.use server)
  | sockError (server : File) (ok : Bool) : Ran opt k s (.sockError server) ok (s.use server)
  | forward {client server : File} {forwarder : Forwarder.State W}
    (pops : popsNext s.forwarder = true)
    (stepped : Forwarder.step k opt.forwarder s.forwarder (.dispatch 0 true) = some forwarder) :
    Ran opt k s (.forward client server) ()
      (((s.use client).use server).linked forwarder (s.links ++ [(client, server)]))
  | link {action : Forwarder.Action W} {forwarder : Forwarder.State W}
    (quiet : ∀ fuel leftFirst, action = .dispatch fuel leftFirst → popsNext s.forwarder = false)
    (stepped : Forwarder.step k opt.forwarder s.forwarder action = some forwarder) :
    Ran opt k s (.link action) () (s.linked forwarder s.links)
  | tick {elapsed : ℕ} {t : Shared A W} (stepped : s.dnsStep opt (.tick elapsed) = some t) :
    Ran opt k s (.tick elapsed) () t

variable {opt : Options} {k : Kernel W} {s t : Shared A W}

theorem dnsStep_eq {action : Dns.Action Callback A} (stepped : s.dnsStep opt action = some t) :
    ∃ dns, Dns.step opt.dns s.dns action = some dns ∧ t = { s with dns } := by
  obtain ⟨dns, moved, rfl⟩ := Option.map_eq_some_iff.mp stepped
  exact ⟨dns, moved, rfl⟩

theorem open_eq {fd : ℕ} {file : File} (opened : s.open fd = some (file, t)) :
    fd ∉ s.files.map File.fd ∧ file = ⟨fd, s.serials⟩ ∧
      t = { s with files := s.files ++ [⟨fd, s.serials⟩], serials := s.serials + 1 } := by
  unfold Shared.open at opened
  split at opened
  · cases opened
  · rename_i free
    cases opened
    exact ⟨free, rfl, rfl⟩

/-- Operations that pass a step of the resolver on. -/
theorem dnsStep_ran {R : Type} {g : Shared A W → R} {r : R} {action : Dns.Action Callback A}
    (ran : (s.dnsStep opt action).map (fun t => (g t, t)) = some (r, t)) :
    s.dnsStep opt action = some t ∧ r = g t := by
  obtain ⟨u, stepped, same⟩ := Option.map_eq_some_iff.mp ran
  cases same
  exact ⟨stepped, rfl⟩

theorem link_ran (action : Forwarder.Action W)
    (quiet : ∀ fuel leftFirst, action = .dispatch fuel leftFirst → popsNext s.forwarder = false)
    (ran : (Forwarder.step k opt.forwarder s.forwarder action).map
      (fun forwarder => ((), s.linked forwarder s.links)) = some ((), t)) :
    Ran opt k s (.link action) () t := by
  obtain ⟨forwarder, stepped, same⟩ := Option.map_eq_some_iff.mp ran
  obtain ⟨_, rfl⟩ := Prod.mk.inj same
  exact .link quiet stepped

theorem some_ran {R : Type} {a r : R} (ran : some (a, s) = some (r, t)) : a = r ∧ s = t :=
  Prod.mk.inj (Option.some.inj ran)

/-- What has come from the environment is an answer to the operation. -/
theorem exec_cases {o : Op A W} {e : Reply A W} {r : o.Res}
    (ran : exec opt k o e s = some (r, t)) : Ran opt k s o r t := by
  cases o with
  | accept =>
      cases e with
      | fd fd => exact .accept ran
      | nothing | ok | request | task | addresses | event | timeout | link | tick => cases ran
  | new eh =>
      obtain ⟨rfl, rfl⟩ := some_ran ran
      exact .new eh
  | add eh =>
      change (if eh ∈ s.registered then none else some ((), _)) = some (r, t) at ran
      split at ran
      · cases ran
      · rename_i absent
        obtain ⟨rfl, rfl⟩ := some_ran ran
        exact .add absent
  | remove eh =>
      change (if eh ∈ s.registered then some ((), _) else none) = some (r, t) at ran
      split at ran
      · rename_i member
        obtain ⟨rfl, rfl⟩ := some_ran ran
        exact .remove member
      · cases ran
  | decRef eh =>
      obtain ⟨rfl, rfl⟩ := some_ran ran
      split
      · rename_i member
        exact .stays member
      · rename_i absent
        exact .deleted absent
  | read eh =>
      cases e with
      | request host_port =>
          obtain ⟨rfl, rfl⟩ := some_ran ran
          exact .read eh host_port
      | nothing | fd | ok | task | addresses | event | timeout | link | tick => cases ran
  | enter eh =>
      obtain ⟨rfl, rfl⟩ := some_ran ran
      exact .enter eh
  | leave i =>
      obtain ⟨rfl, rfl⟩ := some_ran ran
      exact .leave i
  | host_port i =>
      obtain ⟨rfl, rfl⟩ := some_ran ran
      exact .host_port i
  | close file =>
      obtain ⟨rfl, rfl⟩ := some_ran ran
      exact .close file
  | resolve host_port cb =>
      obtain ⟨u, stepped, same⟩ := Option.map_eq_some_iff.mp ran
      obtain ⟨rfl, rfl⟩ := Prod.mk.inj same
      exact .resolve stepped
  | lockCall i =>
      obtain ⟨stepped, rfl⟩ := dnsStep_ran ran
      exact .lockCall stepped
  | scheduleCall i => exact .scheduleCall (dnsStep_ran ran).1
  | answerCall i => exact .answerCall (dnsStep_ran ran).1
  | start =>
      cases e with
      | task n =>
          obtain ⟨u, stepped, same⟩ := Option.map_eq_some_iff.mp ran
          obtain ⟨rfl, rfl⟩ := Prod.mk.inj same
          exact .start stepped
      | nothing =>
          obtain ⟨rfl, rfl⟩ := some_ran ran
          exact .idle
      | fd | ok | request | addresses | event | timeout | link | tick => cases ran
  | lockWorker j =>
      obtain ⟨stepped, rfl⟩ := dnsStep_ran ran
      exact .lockWorker stepped
  | returnResolve j =>
      cases e with
      | addresses addr => exact .returnResolve (dnsStep_ran ran).1
      | nothing | fd | ok | request | task | event | timeout | link | tick => cases ran
  | readClock j => exact .readClock (dnsStep_ran ran).1
  | lockRecord j =>
      obtain ⟨stepped, rfl⟩ := dnsStep_ran ran
      exact .lockRecord stepped
  | callback j => exact .callback (dnsStep_ran ran).1
  | relock j => exact .relock (dnsStep_ran ran).1
  | schedule j => exact .schedule (dnsStep_ran ran).1
  | socket addr =>
      cases e with
      | fd fd =>
          obtain ⟨⟨file, u⟩, opened, same⟩ := Option.map_eq_some_iff.mp ran
          obtain ⟨rfl, rfl⟩ := Prod.mk.inj same
          exact .socket opened
      | nothing =>
          obtain ⟨rfl, rfl⟩ := some_ran ran
          exact .noSocket addr
      | ok | request | task | addresses | event | timeout | link | tick => cases ran
  | connect server addr =>
      cases e with
      | ok ok =>
          obtain ⟨rfl, rfl⟩ := some_ran ran
          exact .connect server addr ok
      | nothing | fd | request | task | addresses | event | timeout | link | tick => cases ran
  | sockError server =>
      cases e with
      | ok ok =>
          obtain ⟨rfl, rfl⟩ := some_ran ran
          exact .sockError server ok
      | nothing | fd | request | task | addresses | event | timeout | link | tick => cases ran
  | forward client server =>
      change (if popsNext s.forwarder then _ else none) = some (r, t) at ran
      split at ran
      · rename_i pops
        obtain ⟨forwarder, stepped, same⟩ := Option.map_eq_some_iff.mp ran
        obtain ⟨rfl, rfl⟩ := Prod.mk.inj same
        exact .forward pops stepped
      · cases ran
  | link action =>
      cases action with
      | dispatch fuel leftFirst =>
          change (if popsNext s.forwarder then none else _) = some (r, t) at ran
          split at ran
          · cases ran
          · rename_i quiet
            exact link_ran _ (fun _ _ _ => Bool.eq_false_iff.mpr quiet) ran
      | outside world => exact link_ran (.outside world) nofun ran
      | wait batch => exact link_ran (.wait batch) nofun ran
      | expire => exact link_ran .expire nofun ran
  | tick elapsed =>
      change (s.dnsStep opt (.tick elapsed)).map _ = some (r, t) at ran
      exact .tick (dnsStep_ran ran).1

/-- What an idle thread may go on with. -/
inductive Woken (opt : Options) (s : Shared A W) : Thread → Code A W → Prop
  | accepts : Woken opt s .main (acceptNext .main)
  | dispatches (eh : Handler) (events : Events) (member : eh ∈ s.registered) :
    Woken opt s (.loop eh.loop) (onEvent (.loop eh.loop) opt.allowed_ports events eh)
  | expires (eh : Handler) (member : eh ∈ s.registered) :
    Woken opt s (.loop eh.loop) (onTimeout (.loop eh.loop) opt.allowed_ports eh)
  | links (action : Forwarder.Action W) :
    Woken opt s (.loop .forwarder) (.op (.link action) fun _ => .ret)
  | works (i : ℕ) : Woken opt s (.worker i) (next (.worker i))
  | ticks (elapsed : ℕ) : Woken opt s .outside (.op (.tick elapsed) fun _ => .ret)

theorem wake_cases {u : Thread} {e : Reply A W} {code : Code A W}
    (woken : wake opt u e s = some code) : Woken opt s u code := by
  unfold wake at woken
  split at woken
  · cases woken
    exact .accepts
  · split at woken
    · rename_i l eh events known
      obtain ⟨member, rfl⟩ := known
      cases woken
      exact .dispatches eh events member
    · cases woken
  · split at woken
    · rename_i l eh known
      obtain ⟨member, rfl⟩ := known
      cases woken
      exact .expires eh member
    · cases woken
  · cases woken
    exact .links _
  · split at woken
    · cases woken
      exact .works _
    · cases woken
  · cases woken
    exact .ticks _
  · cases woken

end Hcproxy.Proxy
