import Hcproxy.DnsTasks
import Hcproxy.Lib.Ownership
import Hcproxy.ProxySteps

set_option autoImplicit false

namespace Hcproxy.Proxy

open Hcproxy.Dns (HostPort)
open Hcproxy.Forwarder (Kernel)
open Ownership (Owned)
open Programs
open Ring (Cursor)

/-- What refers to a handler of the parser or the connector. -/
inductive Keeper
  | thread (t : Thread)
  | scheduled (l : LoopId)
  | registered
  deriving DecidableEq

def Function.handlers : Function → List Handler
  | .add eh => [eh]
  | .new _ _ => []

/-- What the code of a thread has to do with handlers: the file it has opened and not made a handler
for, the handlers that nothing else refers to, the registered handler whose method it runs, and the
call of the parser's callback that it is in, with the handler that has made it. -/
structure Grip where
  opened : Option File := none
  keeps : Multiset Handler := 0
  runs : Option Handler := none
  entered : Option (ℕ × Handler) := none

def Grip.kept (γ : Grip) : Multiset Handler := γ.keeps + γ.entered.elim 0 fun call => {call.2}

/-- What an operation expects of the code that makes it. -/
def Grip.allows {A W : Type} (γ : Grip) : Op A W → Prop
  | .new eh => γ.opened = some eh.fd
  | .add eh => eh ∈ γ.keeps
  | .remove eh => γ.runs = some eh
  | .decRef eh => γ.runs = some eh ∨ eh ∈ γ.keeps
  | .enter eh => eh ∈ γ.keeps ∧ γ.entered = none
  | .leave i | .host_port i => ∃ eh, γ.entered = some (i, eh)
  | _ => True

def Grip.after {A W : Type} (γ : Grip) : (o : Op A W) → o.Res → Grip
  | .accept, file => { γ with opened := some file }
  | .socket _, some file => { γ with opened := some file }
  | .connect _ _, false => { γ with opened := none }
  | .new eh, _ => { γ with opened := none, keeps := eh ::ₘ γ.keeps }
  | .add eh, _ => { γ with keeps := γ.keeps.erase eh }
  | .remove eh, _ => { γ with keeps := eh ::ₘ γ.keeps, runs := none }
  | .decRef eh, _ =>
    if γ.runs = some eh then { γ with runs := none } else { γ with keeps := γ.keeps.erase eh }
  | .enter eh, i => { γ with keeps := γ.keeps.erase eh, entered := some (i, eh) }
  | .leave _, _ => { γ with keeps := γ.kept, entered := none }
  | _, _ => γ

variable {A W : Type}

/-- A worker that calls callbacks has an address for them. -/
def HasAddress : Dns.Worker Callback A → Prop
  | .calling _ _ addr _ _ _ => addr.isSome
  | _ => True

/-- Queued callbacks are handed out with an address. -/
def Told : (o : Op A W) → o.Res → Prop
  | .lockWorker _, after => HasAddress after
  | .lockRecord _, after => HasAddress after
  | _, _ => True

def keepers (w : World (signature A W) Thread (Shared A W)) (γ : Thread → Grip) :
    Keeper → Multiset Handler
  | .thread t => (γ t).kept
  | .scheduled l => (w.pipes l).flatMap Function.handlers
  | .registered => w.shared.registered

/-- What the code of a thread has to do with handlers is so. -/
structure Grip.Fits (γ : Grip) (s : Shared A W) (t : Thread) : Prop where
  opened : ∀ file, γ.opened = some file →
    file.serial < s.serials ∧ ∀ eh ∈ s.alive, eh.fd ≠ file
  runs : ∀ eh, γ.runs = some eh → eh ∈ s.registered ∧ t = .loop eh.loop
  entered : ∀ call, γ.entered = some call → call ∈ s.active

/-- One thing refers to each handler that is alive, and the calls of the parser's callback that look
at their parameter have not returned. -/
structure Kept (opt : Options) (w : World (signature A W) Thread (Shared A W))
    (γ : Thread → Grip) : Prop where
  owned : Owned (keepers w γ) (· ∈ w.shared.alive)
  made : ∀ eh ∈ w.shared.alive, eh.fd.serial < w.shared.serials
  fits : ∀ t, (γ t).Fits w.shared t
  once : ∀ t u file, (γ t).opened = some file → (γ u).opened = some file → t = u
  active : (w.shared.active.map Prod.fst).Nodup
  calls : ∀ call ∈ w.shared.active, call.1 < w.shared.calls
  reads : ∀ r ∈ w.shared.reads, r = ⟨true, true⟩
  dns : Dns.Reachable opt.dns w.shared.dns

/-- A handler is kept by one thing at a time, from when it is made until it is deleted, and nobody
looks at the parameter of a call of the parser's callback but the thread that is in it. -/
def keeping (A W : Type) (opt : Options) :
    Discipline (signature A W) Thread (Shared A W) Grip where
  inv := Kept opt
  rests _ γ := γ = {}
  pre _ γ o := γ.allows o
  post _ γ o r γ' := γ' = γ.after o r ∧ Told o r
  locks _ γ _ γ' := γ' = γ
  unlocks _ γ _ γ' := γ' = γ
  schedules _ γ _ f γ' := f.handlers ≤ γ.keeps ∧ γ' = { γ with keeps := γ.keeps - f.handlers }
  calls _ _ _ := True

section Rules

variable {opt : Options} {t : Thread} {γ : Grip} {next : Code A W}

@[simp] theorem keeping_ret : (keeping A W opt).Follows t γ .ret ↔ γ = {} := Iff.rfl

theorem keeping_op {o : Op A W} {next : o.Res → Code A W} (allowed : γ.allows o)
    (after : ∀ r, Told o r → (keeping A W opt).Follows t (γ.after o r) (next r)) :
    (keeping A W opt).Follows t γ (.op o next) := by
  refine ⟨allowed, ?_⟩
  rintro r γ' ⟨rfl, told⟩
  exact after r told

@[simp] theorem keeping_lock {m : Mutex} : (keeping A W opt).Follows t γ (.lock m next) ↔
    (keeping A W opt).Follows t γ next := by
  constructor
  · rintro ⟨γ', rfl, follows⟩
    exact follows
  · exact fun follows => ⟨γ, rfl, follows⟩

@[simp] theorem keeping_unlock {m : Mutex} : (keeping A W opt).Follows t γ (.unlock m next) ↔
    (keeping A W opt).Follows t γ next := by
  constructor
  · rintro ⟨γ', rfl, follows⟩
    exact follows
  · exact fun follows => ⟨γ, rfl, follows⟩

@[simp] theorem keeping_call {c : Called} : (keeping A W opt).Follows t γ (.call c next) ↔
    (keeping A W opt).Follows t γ next :=
  ⟨fun follows => follows.2, fun follows => ⟨trivial, follows⟩⟩

theorem keeping_schedule {l : LoopId} {f : Function} (given : f.handlers ≤ γ.keeps)
    (after : (keeping A W opt).Follows t { γ with keeps := γ.keeps - f.handlers } next) :
    (keeping A W opt).Follows t γ (.schedule l f next) :=
  ⟨_, ⟨given, rfl⟩, after⟩

end Rules

section Code

variable {opt : Options} {self : Thread} {γ : Grip} {next : Code A W}

theorem keeping_run_add {eh : Handler} (kept : eh ∈ γ.keeps)
    (after : (keeping A W opt).Follows self { γ with keeps := γ.keeps.erase eh } next) :
    (keeping A W opt).Follows self γ (run (.add eh) next) :=
  keeping_op kept fun _ _ => after

/-- A new handler is given to its loop. -/
theorem keeping_add {l : LoopId} {eh : Handler} {m : Multiset Handler} (kept : γ.keeps = eh ::ₘ m)
    (after : (keeping A W opt).Follows self { γ with keeps := m } next) :
    (keeping A W opt).Follows self γ (scheduleOrRun self l (.add eh) next) := by
  unfold scheduleOrRun
  split
  · apply keeping_run_add
    · rw [kept]
      exact Multiset.mem_cons_self eh m
    · rwa [kept, Multiset.erase_cons_head]
  · apply keeping_schedule
    · rw [kept]
      exact Multiset.singleton_le.mpr (Multiset.mem_cons_self eh m)
    · show (keeping A W opt).Follows self { γ with keeps := γ.keeps - {eh} } next
      rwa [Multiset.sub_singleton, kept, Multiset.erase_cons_head]

theorem keeping_forward (client server : File)
    (after : (keeping A W opt).Follows self γ next) :
    (keeping A W opt).Follows self γ (forward self client server next) := by
  unfold forward scheduleOrRun
  split
  · exact keeping_op trivial fun _ _ => after
  · apply keeping_schedule
    · exact Multiset.zero_le γ.keeps
    · show (keeping A W opt).Follows self { γ with keeps := γ.keeps - 0 } next
      rwa [Multiset.sub_zero]

theorem keeping_connected (client : File) (server : Option File)
    (after : (keeping A W opt).Follows self γ next) :
    (keeping A W opt).Follows self γ (connected self client server next) := by
  cases server with
  | none => exact keeping_op trivial fun _ _ => after
  | some server => exact keeping_forward client server after

theorem keeping_connect (addr : Cursor A) (client : File) (used : γ.opened = none)
    (after : (keeping A W opt).Follows self γ next) :
    (keeping A W opt).Follows self γ (connect self addr client next) := by
  have same : { γ with opened := none } = γ := by rw [← used]
  refine keeping_op trivial fun r _ => ?_
  cases r with
  | none => exact keeping_call.mpr (keeping_connected client none after)
  | some server =>
      refine keeping_op trivial fun ok _ => ?_
      cases ok with
      | false =>
          show (keeping A W opt).Follows self { γ with opened := none } _
          rw [same]
          refine keeping_op trivial fun _ _ => ?_
          exact keeping_call.mpr (keeping_connected client none after)
      | true =>
          refine keeping_op rfl fun _ _ => ?_
          apply keeping_add rfl
          show (keeping A W opt).Follows self { γ with opened := none } next
          rwa [same]

/-- Where there is no address, the code is in the call whose parameter it looks at. -/
theorem keeping_resolved (cb : Callback) (addr : Option (Cursor A)) (used : γ.opened = none)
    (inside : addr = none → ∃ eh, γ.entered = some (cb.host_port, eh))
    (after : (keeping A W opt).Follows self γ next) :
    (keeping A W opt).Follows self γ (resolved self cb addr next) := by
  cases addr with
  | none =>
      refine keeping_op (inside rfl) fun _ _ => ?_
      exact keeping_op trivial fun _ _ => after
  | some addr => exact keeping_connect addr cb.client used after

theorem keeping_resolve (host_port : HostPort) (cb : Callback) (used : γ.opened = none)
    (inside : ∃ eh, γ.entered = some (cb.host_port, eh))
    (after : (keeping A W opt).Follows self γ next) :
    (keeping A W opt).Follows self γ (resolve self host_port cb next) := by
  refine keeping_op trivial fun i _ => keeping_lock.mpr (keeping_op trivial fun call _ => ?_)
  cases call with
  | locking | done => exact keeping_unlock.mpr after
  | scheduling =>
      apply keeping_unlock.mpr
      apply keeping_lock.mpr
      exact keeping_op trivial fun _ _ => keeping_unlock.mpr after
  | calling answer =>
      apply keeping_unlock.mpr
      apply keeping_call.mpr
      refine keeping_op trivial fun _ _ => ?_
      exact keeping_resolved cb answer.addr used (fun _ => inside) after

theorem keeping_parseFinish (allowed_ports : Finset HostPort) (client : File)
    (host_port : HostPort) : (keeping A W opt).Follows self { runs := some (.parse client) }
      (parseFinish self allowed_ports client host_port) := by
  refine keeping_op rfl fun _ _ => keeping_call.mpr ?_
  refine keeping_op ⟨Multiset.mem_cons_self _ 0, rfl⟩ fun i _ => ?_
  have inside : (keeping A W opt).Follows self { entered := some (i, .parse client) }
      (.op (.leave i) fun _ => .op (.decRef (.parse client)) fun _ => .ret) := by
    refine keeping_op ⟨_, rfl⟩ fun _ _ => ?_
    refine keeping_op (.inr (Multiset.mem_add.mpr (.inr (Multiset.mem_singleton_self _)))) fun _ _ => ?_
    exact keeping_ret.mpr (by simp [Grip.after, Grip.kept])
  show (keeping A W opt).Follows self { keeps := (Handler.parse client ::ₘ 0).erase (.parse client)
                                        entered := some (i, .parse client) } _
  rw [Multiset.erase_cons_head]
  unfold parsed
  split
  · exact keeping_op trivial fun _ _ => inside
  · exact keeping_resolve _ _ rfl ⟨_, rfl⟩ inside

theorem keeping_connectFinish (server client : File) (ok : Bool) :
    (keeping A W opt).Follows self { runs := some (.connect server client) }
      (connectFinish self server client ok) := by
  have done : (keeping A W opt).Follows self { keeps := {.connect server client} }
      (.op (.decRef (.connect server client)) fun _ => .ret) := by
    refine keeping_op (.inr (Multiset.mem_singleton_self _)) fun _ _ => ?_
    exact keeping_ret.mpr (by simp [Grip.after])
  refine keeping_op rfl fun _ _ => ?_
  cases ok with
  | true => exact keeping_call.mpr (keeping_connected client (some server) done)
  | false =>
      refine keeping_op trivial fun _ _ => ?_
      exact keeping_call.mpr (keeping_connected client none done)

theorem keeping_stays {eh : Handler} : (keeping A W opt).Follows self { runs := some eh }
    (.op (.decRef eh) fun _ => .ret) := by
  refine keeping_op (.inl rfl) fun _ _ => ?_
  exact keeping_ret.mpr (by simp [Grip.after])

theorem keeping_onEvent (allowed_ports : Finset HostPort) (events : Events) (eh : Handler) :
    (keeping A W opt).Follows self { runs := some eh } (onEvent self allowed_ports events eh) := by
  cases eh with
  | parse client =>
      show (keeping A W opt).Follows self _ (parseOnEvent self allowed_ports client events)
      unfold parseOnEvent
      split
      · exact keeping_parseFinish allowed_ports client []
      · split
        · refine keeping_op trivial fun request _ => ?_
          cases request with
          | none => exact keeping_stays
          | some host_port => exact keeping_parseFinish allowed_ports client host_port
        · exact keeping_stays
  | connect server client =>
      show (keeping A W opt).Follows self _ (connectOnEvent self server client events)
      unfold connectOnEvent
      split
      · exact keeping_op trivial fun ok _ => keeping_connectFinish server client ok
      · exact keeping_stays

theorem keeping_onTimeout (allowed_ports : Finset HostPort) (eh : Handler) :
    (keeping A W opt).Follows self { runs := some eh } (onTimeout self allowed_ports eh) := by
  cases eh with
  | parse client => exact keeping_parseFinish allowed_ports client []
  | connect server client => exact keeping_connectFinish server client false

theorem keeping_callAll (j : ℕ) (callbacks : List Callback) (addr : Option (Cursor A))
    (told : addr.isSome) (after : (keeping A W opt).Follows self {} next) :
    (keeping A W opt).Follows self {} (callAll self j callbacks addr next) := by
  induction callbacks generalizing addr with
  | nil => exact after
  | cons f rest ih =>
      apply keeping_call.mpr
      refine keeping_op trivial fun _ _ => ?_
      apply keeping_resolved f addr rfl
      · rintro rfl
        cases told
      · apply ih
        rwa [Dns.advance, Option.isSome_map]

theorem keeping_answerAll (j : ℕ) (after : Dns.Worker Callback A)
    (told : HasAddress after) :
    (keeping A W opt).Follows self {} (answerAll self j after) := by
  have last : (keeping A W opt).Follows self {} (scheduleNext j) := by
    apply keeping_lock.mpr
    refine keeping_op trivial fun _ _ => ?_
    exact keeping_unlock.mpr (keeping_ret.mpr rfl)
  cases after with
  | calling it callbacks addr index now seen =>
      apply keeping_unlock.mpr
      apply keeping_callAll j callbacks addr told
      apply keeping_lock.mpr
      refine keeping_op trivial fun _ _ => ?_
      exact keeping_unlock.mpr last
  | scheduling it next => exact keeping_unlock.mpr last
  | locking | resolving | resolved | recording | done | dangling =>
      exact keeping_unlock.mpr (keeping_ret.mpr rfl)

theorem keeping_processCacheEntry (j : ℕ) :
    (keeping A W opt).Follows self {} (processCacheEntry self j) := by
  refine keeping_lock.mpr (keeping_op trivial fun after told => ?_)
  cases after with
  | resolving it =>
      apply keeping_unlock.mpr
      refine keeping_op trivial fun _ _ => ?_
      refine keeping_op trivial fun _ _ => ?_
      apply keeping_lock.mpr
      exact keeping_op trivial fun after told => keeping_answerAll j after told
  | calling | scheduling | locking | resolved | recording | done | dangling =>
      exact keeping_answerAll j _ told

theorem keeping_next : (keeping A W opt).Follows self {} (Proxy.next self) := by
  refine keeping_lock.mpr (keeping_op trivial fun taken _ => ?_)
  cases taken with
  | none => exact keeping_unlock.mpr (keeping_ret.mpr rfl)
  | some j => exact keeping_unlock.mpr (keeping_processCacheEntry j)

theorem keeping_acceptNext : (keeping A W opt).Follows self {} (acceptNext self) := by
  refine keeping_op trivial fun client _ => ?_
  refine keeping_op rfl fun _ _ => ?_
  apply keeping_add (m := 0) rfl
  exact keeping_ret.mpr rfl

theorem keeping_body (l : LoopId) (f : Function) :
    (keeping A W opt).Follows (.loop l) { keeps := f.handlers } (run f .ret) := by
  cases f with
  | add eh =>
      apply keeping_run_add (Multiset.mem_singleton_self eh)
      exact keeping_ret.mpr (by simp [Function.handlers])
  | new client server => exact keeping_op trivial fun _ _ => keeping_ret.mpr rfl

theorem keeping_wake {t : Thread} {s : Shared A W} {code : Code A W} (woken : Woken opt s t code) :
    ∃ γ : Grip, (keeping A W opt).Follows t γ code ∧
      (γ = {} ∨ ∃ eh, γ = { runs := some eh } ∧ eh ∈ s.registered ∧ t = .loop eh.loop) := by
  cases woken with
  | accepts => exact ⟨{}, keeping_acceptNext, .inl rfl⟩
  | dispatches eh events member =>
      exact ⟨_, keeping_onEvent opt.allowed_ports events eh, .inr ⟨eh, rfl, member, rfl⟩⟩
  | expires eh member =>
      exact ⟨_, keeping_onTimeout opt.allowed_ports eh, .inr ⟨eh, rfl, member, rfl⟩⟩
  | works i => exact ⟨{}, keeping_next, .inl rfl⟩
  | links | ticks => exact ⟨{}, keeping_op trivial fun _ _ => keeping_ret.mpr rfl, .inl rfl⟩

end Code

section Kept

variable {opt : Options} {w : World (signature A W) Thread (Shared A W)} {γ : Thread → Grip}
  {t : Thread} {γ' : Grip} {shared : Shared A W}

theorem keepers_self {pipes : LoopId → List Function} {holder : Mutex → Option Thread} :
    keepers ⟨shared, holder, pipes⟩ (Function.update γ t γ') (.thread t) = γ'.kept := by
  rw [keepers, Function.update_self]

theorem keepers_other {pipes : LoopId → List Function} {holder : Mutex → Option Thread} {o : Keeper}
    (other : o ≠ .thread t) : keepers ⟨shared, holder, pipes⟩ (Function.update γ t γ') o =
      keepers ⟨shared, holder, pipes⟩ γ o := by
  cases o with
  | thread u =>
      have different : u ≠ t := fun same => other (by rw [same])
      rw [keepers, keepers, Function.update_of_ne different]
  | scheduled l => rfl
  | registered => rfl

theorem Kept.alive (kept : Kept opt w γ) {o : Keeper} {eh : Handler} (member : eh ∈ keepers w γ o) :
    eh ∈ w.shared.alive := kept.owned.of_mem member

/-- The other threads are where they were. -/
theorem fits_update (here : γ'.Fits shared t) (others : ∀ u, u ≠ t → (γ u).Fits shared u)
    (u : Thread) : (Function.update γ t γ' u).Fits shared u := by
  by_cases same : u = t
  · subst same
    rwa [Function.update_self]
  · rw [Function.update_of_ne same]
    exact others u same

/-- A file that the thread has opened before is not one that another thread has opened. -/
theorem Kept.once_update (kept : Kept opt w γ)
    (new : ∀ file u, γ'.opened = some file → (γ u).opened = some file → u = t) (u v : Thread)
    (file : File) (first : (Function.update γ t γ' u).opened = some file)
    (second : (Function.update γ t γ' v).opened = some file) : u = v := by
  by_cases here : u = t
  · subst here
    rw [Function.update_self] at first
    by_cases there : v = u
    · exact there.symm
    · rw [Function.update_of_ne there] at second
      exact (new file v first second).symm
  · rw [Function.update_of_ne here] at first
    by_cases there : v = t
    · subst there
      rw [Function.update_self] at second
      exact new file u second first
    · rw [Function.update_of_ne there] at second
      exact kept.once u v file first second

/-- Nothing has happened to any handler. -/
structure Shared.Same (s s' : Shared A W) : Prop where
  registered : s'.registered = s.registered
  alive : s'.alive = s.alive
  active : s'.active = s.active
  calls : s'.calls = s.calls
  reads : s'.reads = s.reads

theorem Kept.same (kept : Kept opt w γ) (same : w.shared.Same shared)
    (serials : w.shared.serials ≤ shared.serials) (dns : Dns.Reachable opt.dns shared.dns) :
    Kept opt { w with shared } γ := by
  refine ⟨?_, ?_, ?_, kept.once, ?_, ?_, ?_, dns⟩
  · refine kept.owned.congr (fun o => ?_) fun eh => ?_
    · cases o with
      | thread u => rfl
      | scheduled l => rfl
      | registered => exact congrArg _ same.registered
    · show eh ∈ shared.alive ↔ eh ∈ w.shared.alive
      rw [same.alive]
  · intro eh member
    have member : eh ∈ shared.alive := member
    rw [same.alive] at member
    exact Nat.lt_of_lt_of_le (kept.made eh member) serials
  · intro u
    refine ⟨?_, ?_, ?_⟩
    · intro file opened
      obtain ⟨less, unused⟩ := (kept.fits u).opened file opened
      refine ⟨Nat.lt_of_lt_of_le less serials, ?_⟩
      show ∀ eh ∈ shared.alive, eh.fd ≠ file
      rwa [same.alive]
    · show ∀ eh, (γ u).runs = some eh → eh ∈ shared.registered ∧ u = .loop eh.loop
      rw [same.registered]
      exact (kept.fits u).runs
    · show ∀ call, (γ u).entered = some call → call ∈ shared.active
      rw [same.active]
      exact (kept.fits u).entered
  · show (shared.active.map Prod.fst).Nodup
    rw [same.active]
    exact kept.active
  · show ∀ call ∈ shared.active, call.1 < shared.calls
    rw [same.active, same.calls]
    exact kept.calls
  · show ∀ r ∈ shared.reads, r = ⟨true, true⟩
    rw [same.reads]
    exact kept.reads

/-- The thread goes on with the same handlers. -/
theorem Kept.goes (kept : Kept opt w γ) (handlers : γ'.kept = (γ t).kept)
    (fits : γ'.Fits w.shared t)
    (new : ∀ file u, γ'.opened = some file → (γ u).opened = some file → u = t) :
    Kept opt w (Function.update γ t γ') := by
  refine ⟨?_, kept.made, ?_, kept.once_update new, kept.active, kept.calls, kept.reads, kept.dns⟩
  · refine kept.owned.congr (fun o => ?_) fun _ => Iff.rfl
    by_cases here : o = .thread t
    · subst here
      rw [keepers_self, handlers]
      rfl
    · exact keepers_other here
  · exact fits_update fits fun u _ => kept.fits u

theorem Grip.kept_erase {γ : Grip} {eh : Handler} (mine : eh ∈ γ.keeps) :
    γ.kept = eh ::ₘ { γ with keeps := γ.keeps.erase eh }.kept := by
  show γ.keeps + _ = eh ::ₘ (γ.keeps.erase eh + _)
  rw [← Multiset.cons_add, Multiset.cons_erase mine]

theorem Grip.mem_kept {γ : Grip} {i : ℕ} {eh : Handler} (inside : γ.entered = some (i, eh)) :
    eh ∈ γ.kept := by
  rw [Grip.kept, inside]
  exact Multiset.mem_add.mpr (.inr (Multiset.mem_singleton_self eh))

/-- `new ParseEventHandler`, `new ConnectEventHandler` -/
theorem Kept.new (kept : Kept opt w γ) {eh : Handler} (opened : (γ t).opened = some eh.fd) :
    Kept opt { w with shared := { w.shared with alive := eh :: w.shared.alive } }
      (Function.update γ t { γ t with opened := none, keeps := eh ::ₘ (γ t).keeps }) := by
  obtain ⟨serial, unused⟩ := (kept.fits t).opened _ opened
  refine ⟨?_, ?_, ?_, kept.once_update nofun, kept.active, kept.calls, kept.reads, kept.dns⟩
  · refine kept.owned.gain (b := .thread t) (x := eh) ?_ ?_ (fun o => keepers_other) ?_
    · exact fun member => unused eh member rfl
    · rw [keepers_self]
      exact Multiset.cons_add eh (γ t).keeps _
    · exact fun y => List.mem_cons
  · intro y member
    rcases List.mem_cons.mp member with rfl | member
    · exact serial
    · exact kept.made y member
  · refine fits_update ⟨nofun, (kept.fits t).runs, (kept.fits t).entered⟩ fun u other => ?_
    refine ⟨?_, (kept.fits u).runs, (kept.fits u).entered⟩
    intro file known
    obtain ⟨less, others⟩ := (kept.fits u).opened file known
    refine ⟨less, fun y member => ?_⟩
    rcases List.mem_cons.mp member with rfl | member
    · rintro rfl
      exact other (kept.once u t _ known opened)
    · exact others y member

/-- `event_loop_.Add(eh, ...)` -/
theorem Kept.add (kept : Kept opt w γ) {eh : Handler} (mine : eh ∈ (γ t).keeps) :
    Kept opt { w with shared := { w.shared with registered := eh :: w.shared.registered } }
      (Function.update γ t { γ t with keeps := (γ t).keeps.erase eh }) := by
  have fits : ∀ u, (γ u).Fits
      { w.shared with registered := eh :: w.shared.registered } u := by
    intro u
    refine ⟨(kept.fits u).opened, ?_, (kept.fits u).entered⟩
    intro y runs
    obtain ⟨member, here⟩ := (kept.fits u).runs y runs
    exact ⟨List.mem_cons_of_mem eh member, here⟩
  refine ⟨?_, kept.made, ?_, ?_, kept.active, kept.calls, kept.reads, kept.dns⟩
  · refine kept.owned.move (a := .thread t) (b := .registered) nofun {eh} ?_ ?_ ?_
    · rw [keepers_self]
      exact Grip.kept_erase mine
    · rfl
    · intro o other different
      rw [keepers_other other]
      cases o with
      | thread u => rfl
      | scheduled l => rfl
      | registered => exact absurd rfl different
  · exact fits_update ⟨(fits t).opened, (fits t).runs, (fits t).entered⟩ fun u _ => fits u
  · exact kept.once_update fun file u known again => kept.once u t file again known

/-- `loop->Remove(this)` -/
theorem Kept.remove (kept : Kept opt w γ) {eh : Handler} (runs : (γ t).runs = some eh) :
    Kept opt { w with shared := { w.shared with
      registered := w.shared.registered.filter (· ≠ eh) } }
      (Function.update γ t { γ t with keeps := eh ::ₘ (γ t).keeps, runs := none }) := by
  obtain ⟨member, here⟩ := (kept.fits t).runs eh runs
  have nodup : w.shared.registered.Nodup := kept.owned.nodup .registered
  refine ⟨?_, kept.made, ?_, ?_, kept.active, kept.calls, kept.reads, kept.dns⟩
  · refine kept.owned.move (a := .registered) (b := .thread t) nofun {eh} ?_ ?_ ?_
    · have split := List.perm_cons_erase member
      rw [nodup.erase_eq_filter eh] at split
      have same : w.shared.registered.filter (· ≠ eh) = w.shared.registered.filter (· != eh) := by
        apply List.filter_congr
        intro y _
        rw [Bool.eq_iff_iff, decide_eq_true_eq, bne_iff_ne]
      show (w.shared.registered : Multiset Handler) = ↑(eh :: w.shared.registered.filter (· ≠ eh))
      rw [same]
      exact Multiset.coe_eq_coe.mpr split
    · rw [keepers_self]
      exact Multiset.cons_add eh (γ t).keeps _
    · intro o different other
      rw [keepers_other other]
      cases o with
      | thread u => rfl
      | scheduled l => rfl
      | registered => exact absurd rfl different
  · refine fits_update ⟨(kept.fits t).opened, nofun, (kept.fits t).entered⟩ fun u other => ?_
    refine ⟨(kept.fits u).opened, ?_, (kept.fits u).entered⟩
    intro y known
    obtain ⟨inside, there⟩ := (kept.fits u).runs y known
    refine ⟨List.mem_filter.mpr ⟨inside, decide_eq_true ?_⟩, there⟩
    rintro rfl
    exact other (there.trans here.symm)
  · exact kept.once_update fun file u known again => kept.once u t file again known

/-- A method of a handler has returned, and the handler has not been removed. -/
theorem Kept.stays (kept : Kept opt w γ) :
    Kept opt w (Function.update γ t { γ t with runs := none }) := by
  refine kept.goes rfl ⟨(kept.fits t).opened, nofun, (kept.fits t).entered⟩ ?_
  exact fun file u known again => kept.once u t file again known

/-- The handler has been removed: it is deleted. -/
theorem Kept.delete (kept : Kept opt w γ) {eh : Handler} (mine : eh ∈ (γ t).keeps) :
    eh ∉ w.shared.registered ∧
      Kept opt { w with shared := { w.shared with alive := w.shared.alive.filter (· ≠ eh) } }
        (Function.update γ t { γ t with keeps := (γ t).keeps.erase eh }) := by
  have here : eh ∈ keepers w γ (.thread t) := Multiset.mem_add.mpr (.inl mine)
  have fewer : ∀ {y}, y ∈ w.shared.alive.filter (· ≠ eh) ↔ y ∈ w.shared.alive ∧ y ≠ eh := by
    intro y
    rw [List.mem_filter, decide_eq_true_eq]
  have fits : ∀ u, (γ u).Fits
      { w.shared with alive := w.shared.alive.filter (· ≠ eh) } u := by
    intro u
    refine ⟨?_, (kept.fits u).runs, (kept.fits u).entered⟩
    intro file known
    obtain ⟨less, unused⟩ := (kept.fits u).opened file known
    exact ⟨less, fun y member => unused y (fewer.mp member).1⟩
  refine ⟨?_, ?_, ?_, ?_, ?_, kept.active, kept.calls, kept.reads, kept.dns⟩
  · intro member
    cases kept.owned.unique here (p := .registered) member
  · refine kept.owned.drop (a := .thread t) (x := eh) ?_ (fun o => keepers_other) fun y => fewer
    rw [keepers_self]
    exact Grip.kept_erase mine
  · exact fun y member => kept.made y (fewer.mp member).1
  · exact fits_update ⟨(fits t).opened, (fits t).runs, (fits t).entered⟩ fun u _ => fits u
  · exact kept.once_update fun file u known again => kept.once u t file again known

/-- The callback of `ParseRequest` is called. -/
theorem Kept.enter (kept : Kept opt w γ) {eh : Handler} (mine : eh ∈ (γ t).keeps)
    (outside : (γ t).entered = none) :
    Kept opt { w with shared := { w.shared with
      active := (w.shared.calls, eh) :: w.shared.active, calls := w.shared.calls + 1 } }
      (Function.update γ t { γ t with
        keeps := (γ t).keeps.erase eh, entered := some (w.shared.calls, eh) }) := by
  have fits : ∀ u, (γ u).Fits { w.shared with
      active := (w.shared.calls, eh) :: w.shared.active, calls := w.shared.calls + 1 } u := by
    intro u
    refine ⟨(kept.fits u).opened, (kept.fits u).runs, ?_⟩
    exact fun call known => List.mem_cons_of_mem _ ((kept.fits u).entered call known)
  refine ⟨?_, kept.made, ?_, ?_, ?_, ?_, kept.reads, kept.dns⟩
  · refine kept.owned.congr (fun o => ?_) fun _ => Iff.rfl
    by_cases here : o = .thread t
    · subst here
      rw [keepers_self]
      show (γ t).keeps.erase eh + {eh} = (γ t).keeps + (γ t).entered.elim 0 _
      rw [outside, Multiset.add_comm, Multiset.singleton_add, Multiset.cons_erase mine]
      exact (Multiset.add_zero _).symm
    · exact keepers_other here
  · refine fits_update ⟨(fits t).opened, (fits t).runs, ?_⟩ fun u _ => fits u
    rintro call ⟨⟩
    exact List.mem_cons_self
  · exact kept.once_update fun file u known again => kept.once u t file again known
  · refine List.nodup_cons.mpr ⟨?_, kept.active⟩
    intro member
    obtain ⟨call, inside, same⟩ := List.mem_map.mp member
    have less := kept.calls call inside
    have same : call.1 = w.shared.calls := same
    omega
  · intro call member
    rcases List.mem_cons.mp member with rfl | member
    · exact Nat.lt_succ_self _
    · exact Nat.lt_succ_of_lt (kept.calls call member)

/-- Two calls with the same number are the same. -/
theorem Kept.call_eq (kept : Kept opt w γ) {call other : ℕ × Handler}
    (first : call ∈ w.shared.active) (second : other ∈ w.shared.active)
    (same : call.1 = other.1) : call = other :=
  List.inj_on_of_nodup_map kept.active first second same

/-- It returns. -/
theorem Kept.leave (kept : Kept opt w γ) {i : ℕ} {eh : Handler}
    (inside : (γ t).entered = some (i, eh)) :
    Kept opt { w with shared := { w.shared with active := w.shared.active.filter (·.1 ≠ i) } }
      (Function.update γ t { γ t with keeps := (γ t).kept, entered := none }) := by
  refine ⟨?_, kept.made, ?_, ?_, ?_, ?_, kept.reads, kept.dns⟩
  · refine kept.owned.congr (fun o => ?_) fun _ => Iff.rfl
    by_cases here : o = .thread t
    · subst here
      rw [keepers_self]
      exact Multiset.add_zero (γ t).kept
    · exact keepers_other here
  · refine fits_update ⟨(kept.fits t).opened, (kept.fits t).runs, nofun⟩ fun u other => ?_
    refine ⟨(kept.fits u).opened, (kept.fits u).runs, ?_⟩
    intro call known
    have member := (kept.fits u).entered call known
    refine List.mem_filter.mpr ⟨member, decide_eq_true ?_⟩
    intro same
    obtain rfl := kept.call_eq member ((kept.fits t).entered _ inside) same
    cases kept.owned.unique (o := .thread u) (p := .thread t) (Grip.mem_kept known)
      (Grip.mem_kept inside)
    exact other rfl
  · exact kept.once_update fun file u known again => kept.once u t file again known
  · exact (List.filter_sublist.map Prod.fst).nodup kept.active
  · exact fun call member => kept.calls call (List.mem_filter.mp member).1

/-- The parameter that is looked at belongs to a call that has not returned. -/
theorem Kept.host_port (kept : Kept opt w γ) {i : ℕ} {eh : Handler}
    (inside : (γ t).entered = some (i, eh)) :
    Kept opt { w with shared := { w.shared with reads := w.shared.reads ++
      [⟨(w.shared.active.find? (·.1 == i)).isSome,
        (w.shared.active.find? (·.1 == i)).any (·.2 ∈ w.shared.alive)⟩] } } γ := by
  have member := (kept.fits t).entered _ inside
  have found : w.shared.active.find? (·.1 == i) = some (i, eh) := by
    cases call : w.shared.active.find? (·.1 == i) with
    | none => simpa using List.find?_eq_none.mp call _ member
    | some other =>
        have same := List.find?_some call
        rw [kept.call_eq (List.mem_of_find?_eq_some call) member (beq_iff_eq.mp same)]
  refine ⟨kept.owned, kept.made, ?_, kept.once, kept.active, kept.calls, ?_, kept.dns⟩
  · exact fun u => ⟨(kept.fits u).opened, (kept.fits u).runs, (kept.fits u).entered⟩
  · intro r member
    rcases List.mem_append.mp member with member | member
    · exact kept.reads r member
    · have alive := kept.alive (o := .thread t) (Grip.mem_kept inside)
      rw [List.mem_singleton.mp member, found]
      simp [alive]

/-- A function is written to a pipe. -/
theorem Kept.schedule (kept : Kept opt w γ) (l : LoopId) {f : Function}
    (given : f.handlers ≤ (γ t).keeps) :
    Kept opt { w with pipes := Function.update w.pipes l (w.pipes l ++ [f]) }
      (Function.update γ t { γ t with keeps := (γ t).keeps - f.handlers }) := by
  have fits := kept.fits t
  refine ⟨?_, kept.made, ?_, ?_, kept.active, kept.calls, kept.reads, kept.dns⟩
  · refine kept.owned.move (a := .thread t) (b := .scheduled l) nofun f.handlers ?_ ?_ ?_
    · rw [keepers_self]
      show (γ t).keeps + _ = f.handlers + ((γ t).keeps - f.handlers + _)
      rw [← Multiset.add_assoc, Multiset.add_comm, Multiset.add_comm (f.handlers : Multiset Handler),
        Multiset.sub_add_cancel given, Multiset.add_comm]
    · exact Ownership.queue_push Function.handlers f
    · intro o other different
      rw [keepers_other other]
      cases o with
      | thread u => rfl
      | scheduled m =>
          have apart : m ≠ l := fun same => different (by rw [same])
          exact Ownership.queue_other Function.handlers apart _
      | registered => rfl
  · exact fits_update ⟨fits.opened, fits.runs, fits.entered⟩ fun u _ => kept.fits u
  · exact kept.once_update fun file u known again => kept.once u t file again known

/-- A loop takes a function from its pipe. -/
theorem Kept.pop (kept : Kept opt w γ) {l : LoopId} {f : Function} {rest : List Function}
    (idle : γ t = {}) (pipe : w.pipes l = f :: rest) :
    Kept opt { w with pipes := Function.update w.pipes l rest }
      (Function.update γ t { keeps := f.handlers }) := by
  refine ⟨?_, kept.made, ?_, kept.once_update nofun, kept.active, kept.calls, kept.reads, kept.dns⟩
  · refine kept.owned.move (a := .scheduled l) (b := .thread t) nofun f.handlers ?_ ?_ ?_
    · exact Ownership.queue_pop Function.handlers pipe
    · rw [keepers_self]
      show _ = _ + (γ t).kept
      rw [idle]
      rfl
    · intro o different other
      rw [keepers_other other]
      cases o with
      | thread u => rfl
      | scheduled m =>
          have apart : m ≠ l := fun same => different (by rw [same])
          exact Ownership.queue_other Function.handlers apart rest
      | registered => rfl
  · exact fits_update ⟨nofun, nofun, nofun⟩ fun u _ => kept.fits u

end Kept

end Hcproxy.Proxy
