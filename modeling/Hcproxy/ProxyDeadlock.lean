import Hcproxy.ForwarderTunnels
import Hcproxy.ProxySteps

set_option autoImplicit false

namespace Hcproxy.Proxy

open Programs
open Hcproxy.Dns (HostPort)
open Hcproxy.Forwarder (Kernel)
open Ring (Cursor)

/-- Functions are scheduled on loops of higher rank. -/
def rank : Thread → ℕ
  | .main | .outside => 0
  | .loop .parser | .worker _ => 1
  | .loop .connector => 2
  | .loop .forwarder => 3

variable {A W : Type} {opt : Options} {k : Kernel W} {capacity : LoopId → ℕ} {self : Thread}

/-- The code may be run by the thread `self` while it holds no mutex. -/
def Orderly (opt : Options) (k : Kernel W) (capacity : LoopId → ℕ) (self : Thread)
    (code : Code A W) : Prop :=
  (ordered (system opt k A capacity) rank).Follows self none code

section Code

variable {next : Code A W}

theorem orderly_decRef (eh : Handler) :
    Orderly opt k capacity self (.op (.decRef eh) fun _ => .ret : Code A W) :=
  ordered_op.mpr fun _ => ordered_ret.mpr rfl

theorem orderly_run (f : Function) (after : Orderly opt k capacity self next) :
    Orderly opt k capacity self (run f next) := by
  cases f with
  | add eh => exact ordered_op.mpr fun _ => after
  | new client server => exact ordered_op.mpr fun _ => after

theorem orderly_scheduleOrRun {l : LoopId} (f : Function) (below : rank self < rank (.loop l))
    (after : Orderly opt k capacity self next) :
    Orderly opt k capacity self (scheduleOrRun self l f next) := by
  unfold scheduleOrRun
  split
  · exact orderly_run f after
  · exact ordered_schedule.mpr ⟨below, after⟩

theorem orderly_connected (client : File) (server : Option File) (below : rank self < 3)
    (after : Orderly opt k capacity self next) :
    Orderly opt k capacity self (connected self client server next) := by
  cases server with
  | none => exact ordered_op.mpr fun _ => after
  | some server => exact orderly_scheduleOrRun _ below after

theorem orderly_connect (addr : Cursor A) (client : File) (below : rank self < 2)
    (after : Orderly opt k capacity self next) :
    Orderly opt k capacity self (connect self addr client next) := by
  have failed := orderly_connected client none (Nat.lt_succ_of_lt below) after
  have scheduled : ∀ server, Orderly opt k capacity self
      (scheduleOrRun self .connector (.add (.connect server client)) next) :=
    fun server => orderly_scheduleOrRun _ below after
  refine ordered_op.mpr fun r => ?_
  cases r with
  | none => exact ordered_call.mpr failed
  | some server =>
      refine ordered_op.mpr fun ok => ?_
      cases ok with
      | false => exact ordered_op.mpr fun _ => ordered_call.mpr failed
      | true => exact ordered_op.mpr fun _ => scheduled server

theorem orderly_resolved (cb : Callback) (addr : Option (Cursor A)) (below : rank self < 2)
    (after : Orderly opt k capacity self next) :
    Orderly opt k capacity self (resolved self cb addr next) := by
  cases addr with
  | none => exact ordered_op.mpr fun _ => ordered_op.mpr fun _ => after
  | some addr => exact orderly_connect addr cb.client below after

theorem orderly_resolve (host_port : HostPort) (cb : Callback) (below : rank self < 2)
    (after : Orderly opt k capacity self next) :
    Orderly opt k capacity self (resolve self host_port cb next) := by
  refine ordered_op.mpr fun i => ordered_lock.mpr (ordered_op.mpr fun call => ?_)
  cases call with
  | locking | done => exact ordered_unlock.mpr after
  | scheduling =>
      refine ordered_unlock.mpr (ordered_lock.mpr (ordered_op.mpr fun _ => ?_))
      exact ordered_unlock.mpr after
  | calling answer =>
      refine ordered_unlock.mpr (ordered_call.mpr (ordered_op.mpr fun _ => ?_))
      exact orderly_resolved cb answer.addr below after

theorem orderly_parseFinish (allowed_ports : Finset HostPort) (client : File)
    (host_port : HostPort) (below : rank self < 2) :
    Orderly opt k capacity self
      (parseFinish self allowed_ports client host_port : Code A W) := by
  refine ordered_op.mpr fun _ => ordered_call.mpr (ordered_op.mpr fun i => ?_)
  have done : Orderly opt k capacity self (.op (.leave i) fun _ =>
      .op (.decRef (.parse client)) fun _ => .ret : Code A W) :=
    ordered_op.mpr fun _ => orderly_decRef (.parse client)
  unfold parsed
  split
  · exact ordered_op.mpr fun _ => done
  · exact orderly_resolve _ _ below done

theorem orderly_connectFinish (server client : File) (ok : Bool) (below : rank self < 3) :
    Orderly opt k capacity self (connectFinish self server client ok : Code A W) := by
  have done : Orderly opt k capacity self
      (.op (.decRef (.connect server client)) fun _ => .ret : Code A W) :=
    orderly_decRef (.connect server client)
  refine ordered_op.mpr fun _ => ?_
  cases ok with
  | true => exact ordered_call.mpr (orderly_connected client (some server) below done)
  | false =>
      refine ordered_op.mpr fun _ => ordered_call.mpr ?_
      exact orderly_connected client none below done

theorem orderly_onEvent (allowed_ports : Finset HostPort) (events : Events) (eh : Handler) :
    Orderly opt k capacity (.loop eh.loop)
      (onEvent (.loop eh.loop) allowed_ports events eh : Code A W) := by
  cases eh with
  | parse client =>
      show Orderly opt k capacity (.loop .parser) (parseOnEvent _ _ client events : Code A W)
      have below : rank (.loop .parser) < 2 := by decide
      unfold parseOnEvent
      split
      · exact orderly_parseFinish allowed_ports client [] below
      · split
        · refine ordered_op.mpr fun request => ?_
          cases request with
          | none => exact orderly_decRef (.parse client)
          | some host_port => exact orderly_parseFinish allowed_ports client host_port below
        · exact orderly_decRef (.parse client)
  | connect server client =>
      show Orderly opt k capacity (.loop .connector) (connectOnEvent _ _ client events : Code A W)
      unfold connectOnEvent
      split
      · exact ordered_op.mpr fun ok => orderly_connectFinish server client ok (by decide)
      · exact orderly_decRef (.connect server client)

theorem orderly_onTimeout (allowed_ports : Finset HostPort) (eh : Handler) :
    Orderly opt k capacity (.loop eh.loop)
      (onTimeout (.loop eh.loop) allowed_ports eh : Code A W) := by
  cases eh with
  | parse client => exact orderly_parseFinish allowed_ports client [] (show 1 < 2 by decide)
  | connect server client =>
      exact orderly_connectFinish server client false (show 2 < 3 by decide)

theorem orderly_callAll (j : ℕ) (callbacks : List Callback) (addr : Option (Cursor A))
    (below : rank self < 2) (after : Orderly opt k capacity self next) :
    Orderly opt k capacity self (callAll self j callbacks addr next) := by
  induction callbacks generalizing addr with
  | nil => exact after
  | cons f rest ih =>
      refine ordered_call.mpr (ordered_op.mpr fun _ => ?_)
      exact orderly_resolved f addr below (ih (Dns.advance addr))

/-- The mutex of the resolver is held here. -/
theorem ordered_answerAll (j : ℕ) (after : Dns.Worker Callback A) (below : rank self < 2) :
    (ordered (system opt k A capacity) rank).Follows self (some .dns) (answerAll self j after) := by
  have last : Orderly opt k capacity self (scheduleNext j : Code A W) :=
    ordered_lock.mpr (ordered_op.mpr fun _ => ordered_unlock.mpr (ordered_ret.mpr rfl))
  cases after with
  | calling it callbacks addr index now seen =>
      refine ordered_unlock.mpr (orderly_callAll j callbacks addr below ?_)
      exact ordered_lock.mpr (ordered_op.mpr fun _ => ordered_unlock.mpr last)
  | scheduling it next => exact ordered_unlock.mpr last
  | locking | resolving | resolved | recording | done | dangling =>
      exact ordered_unlock.mpr (ordered_ret.mpr rfl)

theorem orderly_processCacheEntry (j : ℕ) (below : rank self < 2) :
    Orderly opt k capacity self (processCacheEntry self j : Code A W) := by
  refine ordered_lock.mpr (ordered_op.mpr fun after => ?_)
  cases after with
  | resolving it =>
      refine ordered_unlock.mpr (ordered_op.mpr fun _ => ordered_op.mpr fun _ => ?_)
      exact ordered_lock.mpr (ordered_op.mpr fun after => ordered_answerAll j after below)
  | calling | scheduling | locking | resolved | recording | done | dangling =>
      exact ordered_answerAll j _ below

theorem orderly_next (below : rank self < 2) :
    Orderly opt k capacity self (Proxy.next self : Code A W) := by
  refine ordered_lock.mpr (ordered_op.mpr fun taken => ?_)
  cases taken with
  | none => exact ordered_unlock.mpr (ordered_ret.mpr rfl)
  | some j => exact ordered_unlock.mpr (orderly_processCacheEntry j below)

theorem orderly_acceptNext (below : rank self < 1) :
    Orderly opt k capacity self (acceptNext self : Code A W) := by
  refine ordered_op.mpr fun client => ordered_op.mpr fun _ => ?_
  exact orderly_scheduleOrRun _ below (ordered_ret.mpr rfl)

end Code

theorem orderly_wake {t : Thread} {s : Shared A W} {code : Code A W} (woken : Woken opt s t code) :
    Orderly opt k capacity t code := by
  cases woken with
  | accepts => exact orderly_acceptNext (by decide)
  | dispatches eh events => exact orderly_onEvent opt.allowed_ports events eh
  | expires eh => exact orderly_onTimeout opt.allowed_ports eh
  | works => exact orderly_next Nat.one_lt_two
  | links | ticks => exact ordered_op.mpr fun _ => ordered_ret.mpr rfl

/-- The whole proxy goes by the order of its locks and loops. -/
theorem ordered_of_reachable {s : State A W} (reach : Reachable opt k capacity s) :
    (ordered (system opt k A capacity) rank).Holds s := by
  have sound : (ordered (system opt k A capacity) rank).Sound (system opt k A capacity)
      fun _ _ _ => True := by
    refine ordered_sound (fun l f => ?_) fun t reply s code woken => orderly_wake (wake_cases woken)
    exact orderly_run f (ordered_ret.mpr rfl)
  refine sound.reachable ?_ (fun _ a _ => ?_) reach
  · intro s init
    obtain ⟨clock, forwarder, _, rfl⟩ := init
    exact ⟨fun _ => none, fun m t => by simp, fun t => rfl⟩
  · cases a <;> simp [Fine]

/-- The threads of the proxy never wait for each other in a cycle, however small the pipes are:
whoever holds a mutex neither locks another one nor schedules a function nor calls a callback, and
no loop writes to its own pipe. -/
theorem deadlock_free {s : State A W} (reach : Reachable opt k capacity s) :
    (∀ t, ¬ Relation.TransGen (WaitsFor (system opt k A capacity) s) t t) ∧
    (∀ m t, s.holder m = some t → (s.threads t).Local) ∧
    (∀ t l f next, s.threads t = .schedule l f next → t ≠ .loop l) ∧
    (∀ t, ∃ u, Relation.ReflTransGen (WaitsFor (system opt k A capacity) s) t u ∧
      (s.threads u = .ret ∨ (∃ o next, s.threads u = .op o next) ∨
        ∀ reply, (step (system opt k A capacity) s (.run u reply)).isSome = true)) := by
  have holds := ordered_of_reachable reach
  refine ⟨no_cycle holds, fun m t held => local_of_holds holds held, ?_, fun t => ?_⟩
  · rintro t l f next schedules rfl
    exact Nat.lt_irrefl _ (rank_of_schedules holds schedules)
  · have bounded : ∀ t, rank t ≤ 3 := by
      intro t
      unfold rank
      split <;> decide
    obtain ⟨u, path, free⟩ := waits_for_free holds bounded t
    refine ⟨u, path, ?_⟩
    by_cases idle : s.threads u = .ret
    · exact .inl idle
    · by_cases busy : ∃ o next, s.threads u = .op o next
      · exact .inr (.inl busy)
      · refine .inr (.inr fun reply => ?_)
        exact ((moves_of_free holds free reply).resolve_left idle).resolve_left busy

/-- Two clients connect before the parser's loop gets to the first. -/
def twoClients : List (Action (signature ℕ Forwarder.Bytes) Thread (Reply ℕ Forwarder.Bytes)) :=
  [.wake .main .nothing, .run .main (.fd 5), .run .main .nothing, .run .main .nothing,
    .wake .main .nothing, .run .main (.fd 6), .run .main .nothing]

def onePort : Options := ⟨{[0x31]}, ⟨4, 3, 9⟩, 1, Forwarder.onePage⟩

def started : State ℕ Forwarder.Bytes where
  shared := {
    dns := { clock := 0 }
    forwarder := { loop := { timeout := Forwarder.sixty }, clock := 0, world := [] } }
  holder _ := none
  pipes _ := []
  threads _ := .ret

theorem started_init : Init started := ⟨0, _, ⟨_, _, _, rfl⟩, rfl⟩

def crowded : State ℕ Forwarder.Bytes :=
  (Runs.replay (step (system onePort Forwarder.eager ℕ fun _ => 1)) started twoClients).get
    (by decide +kernel)

theorem crowded_reachable : Reachable onePort Forwarder.eager (fun _ => 1) crowded :=
  Runs.replay_reachable twoClients (.start started_init) (Option.some_get _).symm

theorem deadlock_free_crowded :
    WaitsFor (system onePort Forwarder.eager ℕ fun _ => 1) crowded .main (.loop .parser) ∧
      ∀ t, ¬ Relation.TransGen (WaitsFor (system onePort Forwarder.eager ℕ fun _ => 1) crowded) t t :=
  ⟨.pipe (l := .parser) rfl (by decide +kernel) rfl, (deadlock_free crowded_reachable).1⟩

section Runs

abbrev Actions (W : Type) := List (Action (signature ℕ W) Thread (Reply ℕ W))

variable {W : Type}

def alone (t : Thread) (n : ℕ) : Actions W := List.replicate n (.run t .nothing)

/-- A client connects and asks for `a:1`, up to the lookup in `cache_`. -/
def asks (client : File) : Actions W :=
  [.wake .main .nothing, .run .main (.fd client.fd)] ++ alone .main 2 ++
    [.pop .parser, .run (.loop .parser) .nothing,
      .wake (.loop .parser) (.event (.parse client) EPOLLIN),
      .run (.loop .parser) (.request (some [0x61, 0x3a, 0x31]))] ++ alone (.loop .parser) 6

def elapses (elapsed : ℕ) : Actions W := [.wake .outside (.tick elapsed), .run .outside .nothing]

def oneAddress : { items : List ℕ // items ≠ [] } := ⟨[7], List.cons_ne_nil 7 []⟩

/-- The entry is processed, up to the first callback. -/
def processes (addr : Option { items : List ℕ // items ≠ [] }) : Actions W :=
  [.wake (.worker 0) .nothing, .run (.worker 0) .nothing, .run (.worker 0) (.task 0)] ++
    alone (.worker 0) 4 ++ [.run (.worker 0) (.addresses addr)] ++ alone (.worker 0) 5

end Runs

end Hcproxy.Proxy
