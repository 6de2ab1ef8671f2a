import Hcproxy.ProxyDeadlock
import Hcproxy.ProxyHandlers

set_option autoImplicit false

namespace Hcproxy.Proxy

open Hcproxy.Dns (HostPort)
open Hcproxy.Forwarder (Bytes Kernel)
open Programs
open Ring (Cursor)

variable {A W : Type}

/-- There is an address for the callbacks that are queued for an entry: `ResolveSync` is going to be
called, it has found one, or it had found one before. -/
def Answered (opt : Options) (dns : Dns.State Callback A) : Dns.Worker Callback A → Prop
  | .locking it now => ∀ n ∈ dns.node it, n.data.callbacks = [] ∨
    Clock.add n.data.resolved_at opt.dns.dns_cache_refresh_period ≤ now ∨ n.data.addr.isSome
  | .recording it _ addr _ => ∀ n ∈ dns.node it, n.data.callbacks = [] ∨
    addr.isSome ∨ n.data.addr.isSome
  | _ => True

instance {opt : Options} {dns : Dns.State Callback A} : DecidablePred (Answered opt dns)
  | .locking it now => inferInstanceAs (Decidable (∀ n ∈ dns.node it, n.data.callbacks = [] ∨
    Clock.add n.data.resolved_at opt.dns.dns_cache_refresh_period ≤ now ∨ n.data.addr.isSome))
  | .recording it _ addr _ => inferInstanceAs (Decidable (∀ n ∈ dns.node it,
    n.data.callbacks = [] ∨ addr.isSome ∨ n.data.addr.isSome))
  | .resolving _ | .resolved _ _ _ | .calling _ _ _ _ _ _ | .scheduling _ _ | .done | .dangling =>
    .isTrue trivial

/-- The execution of `ProcessCacheEntry` that may take the queue of its entry. -/
def Op.takes : Op A W → Option ℕ
  | .lockWorker j | .lockRecord j => some j
  | _ => none

/-- Whenever `ProcessCacheEntry` takes queued callbacks, there is an address for them. -/
def Addressed (opt : Options) (o : Op A W) (_ : Reply A W) (s : Shared A W) : Prop :=
  ∀ j ∈ o.takes, ∀ w ∈ s.dns.workers[j]?, Answered opt s.dns w

instance {opt : Options} {o : Op A W} {e : Reply A W} {s : Shared A W} :
    Decidable (Addressed opt o e s) :=
  inferInstanceAs (Decidable (∀ j ∈ o.takes, ∀ w ∈ s.dns.workers[j]?, Answered opt s.dns w))

instance {opt : Options} (s : State A W) : DecidablePred (Fine (Addressed opt) s) := Fine.decidable s

section Sound

variable {opt : Options} {k : Kernel W} {w : World (signature A W) Thread (Shared A W)}
  {γ : Thread → Grip} {t : Thread} {shared : Shared A W}

theorem record_addr {n : Dns.Node Callback A} (lookup now : ℕ) {addr : Option (Cursor A)}
    (either : addr.isSome ∨ n.data.addr.isSome) : (n.record lookup addr now).data.addr.isSome := by
  cases addr with
  | none => exact either.resolve_left nofun
  | some addr => rfl

/-- What `ProcessCacheEntry` hands out is the address of the entry. -/
theorem hasAddress_of_drain {n : Dns.Node Callback A} (it now : ℕ)
    (either : n.data.callbacks = [] ∨ n.data.addr.isSome) :
    HasAddress (Dns.drain opt.dns it n now).1 := by
  unfold Dns.drain
  split
  · trivial
  · rename_i queued
    exact either.resolve_left queued

theorem Kept.dnsStep (kept : Kept opt w γ) {action : Dns.Action Callback A}
    (stepped : w.shared.dnsStep opt action = some shared) : Kept opt { w with shared } γ := by
  obtain ⟨dns, moved, rfl⟩ := dnsStep_eq stepped
  exact kept.same ⟨rfl, rfl, rfl, rfl, rfl⟩ (Nat.le_refl _) (.move kept.dns ⟨action, trivial, moved⟩)

theorem hasAddress_lockWorker {s s' : Shared A W} {j : ℕ} {e : Reply A W}
    (dns : Dns.Reachable opt.dns s.dns) (addressed : Addressed opt (.lockWorker j) e s)
    (stepped : s.dnsStep opt (.lockWorker j) = some s') :
    HasAddress (s'.dns.workers[j]?.getD .done) := by
  obtain ⟨d, moved, rfl⟩ := dnsStep_eq stepped
  have single := Dns.ReachableIf.singleTask dns
  cases Dns.step_cases moved with
  | erases found node empty unused =>
      simp [List.getElem?_set_self (List.getElem?_eq_some_iff.mp found).1, HasAddress]
  | looksUp found node stale =>
      simp [List.getElem?_set_self (List.getElem?_eq_some_iff.mp found).1, HasAddress]
  | skips found node recent =>
      rename_i it now n
      show HasAddress ((s.dns.workers.set j _)[j]?.getD .done)
      rw [List.getElem?_set_self (List.getElem?_eq_some_iff.mp found).1]
      apply hasAddress_of_drain
      refine (addressed j rfl _ found n node).imp_right fun due => due.resolve_left ?_
      omega
  | dangles found uses erased => exact absurd erased (single.node_ne_none found uses)

theorem hasAddress_lockRecord {s s' : Shared A W} {j : ℕ} {e : Reply A W}
    (dns : Dns.Reachable opt.dns s.dns) (addressed : Addressed opt (.lockRecord j) e s)
    (stepped : s.dnsStep opt (.lockRecord j) = some s') :
    HasAddress (s'.dns.workers[j]?.getD .done) := by
  obtain ⟨d, moved, rfl⟩ := dnsStep_eq stepped
  have single := Dns.ReachableIf.singleTask dns
  cases Dns.step_cases moved with
  | records found node =>
      rename_i it lookup now addr n
      show HasAddress ((s.dns.workers.set j _)[j]?.getD .done)
      rw [List.getElem?_set_self (List.getElem?_eq_some_iff.mp found).1]
      apply hasAddress_of_drain
      rw [show (n.record lookup addr now).data.callbacks = n.data.callbacks from
        Dns.record_callbacks n.data addr now]
      exact (addressed j rfl _ found n node).imp_right (record_addr lookup now)
  | dangles found uses erased => exact absurd erased (single.node_ne_none found uses)

/-- A file is opened. -/
theorem Kept.open (kept : Kept opt w γ) {fd : ℕ} {file : File}
    (opened : w.shared.open fd = some (file, shared)) :
    Kept opt { w with shared } (Function.update γ t { γ t with opened := some file }) := by
  obtain ⟨_, rfl, rfl⟩ := open_eq opened
  have later : Kept opt { w with shared := { w.shared with
      files := w.shared.files ++ [⟨fd, w.shared.serials⟩], serials := w.shared.serials + 1 } } γ :=
    kept.same ⟨rfl, rfl, rfl, rfl, rfl⟩ (Nat.le_succ _) kept.dns
  refine later.goes rfl ⟨?_, (later.fits t).runs, (later.fits t).entered⟩ ?_
  · rintro file ⟨⟩
    refine ⟨Nat.lt_succ_self _, fun eh member same => ?_⟩
    have less := kept.made eh member
    rw [same] at less
    exact Nat.lt_irrefl _ less
  · rintro file u ⟨⟩ again
    exact absurd ((kept.fits u).opened _ again).1 (Nat.lt_irrefl _)

/-- Nothing else is written by what threads do with files and with the forwarder. -/
theorem Kept.quiet (kept : Kept opt w γ) {s : Shared A W}
    (same : s = { w.shared with
      forwarder := s.forwarder, files := s.files, links := s.links, uses := s.uses }) :
    Kept opt { w with shared := s } γ := by
  rw [same]
  exact kept.same ⟨rfl, rfl, rfl, rfl, rfl⟩ (Nat.le_refl _) kept.dns

/-- Each operation goes by the discipline. -/
theorem Kept.ran (kept : Kept opt w γ) {o : Op A W} {e : Reply A W} {r : o.Res}
    (allowed : (γ t).allows o) (addressed : Addressed opt o e w.shared)
    (ran : Ran opt k w.shared o r shared) : Told o r ∧
      Kept opt { w with shared } (Function.update γ t ((γ t).after o r)) := by
  have same : ∀ {s}, Kept opt { w with shared := s } γ →
      Kept opt { w with shared := s } (Function.update γ t (γ t)) := by
    intro s kept
    rwa [Function.update_eq_self]
  cases ran with
  | accept opened => exact ⟨trivial, kept.open opened⟩
  | new eh => exact ⟨trivial, kept.new allowed⟩
  | add absent => exact ⟨trivial, (kept.add allowed).quiet rfl⟩
  | remove member => exact ⟨trivial, (kept.remove allowed).quiet rfl⟩
  | @stays eh member =>
      have runs : (γ t).runs = some eh := by
        refine allowed.resolve_right fun mine => ?_
        exact (kept.delete mine).1 member
      have after : (γ t).after (.decRef eh : Op A W) () = { γ t with runs := none } := if_pos runs
      rw [after]
      exact ⟨trivial, kept.stays⟩
  | @deleted eh absent =>
      have runs : (γ t).runs ≠ some eh := fun runs => absent ((kept.fits t).runs eh runs).1
      have after : (γ t).after (.decRef eh : Op A W) () =
          { γ t with keeps := (γ t).keeps.erase eh } := if_neg runs
      rw [after]
      exact ⟨trivial, (kept.delete (allowed.resolve_left runs)).2⟩
  | read eh host_port => exact ⟨trivial, same (kept.quiet rfl)⟩
  | enter eh => exact ⟨trivial, kept.enter allowed.1 allowed.2⟩
  | leave i =>
      obtain ⟨eh, inside⟩ := allowed
      exact ⟨trivial, kept.leave inside⟩
  | host_port i =>
      obtain ⟨eh, inside⟩ := allowed
      exact ⟨trivial, same (kept.host_port inside)⟩
  | close file => exact ⟨trivial, same (kept.quiet rfl)⟩
  | lockWorker stepped =>
      exact ⟨hasAddress_lockWorker kept.dns addressed stepped, same (kept.dnsStep stepped)⟩
  | lockRecord stepped =>
      exact ⟨hasAddress_lockRecord kept.dns addressed stepped, same (kept.dnsStep stepped)⟩
  | resolve stepped | lockCall stepped | scheduleCall stepped | answerCall stepped
  | start stepped | returnResolve stepped | readClock stepped | callback stepped
  | relock stepped | schedule stepped | tick stepped =>
      exact ⟨trivial, same (kept.dnsStep stepped)⟩
  | idle => exact ⟨trivial, same kept⟩
  | socket opened => exact ⟨trivial, kept.open opened⟩
  | noSocket addr => exact ⟨trivial, same kept⟩
  | connect server addr ok =>
      refine ⟨trivial, ?_⟩
      cases ok with
      | true => exact same (kept.quiet rfl)
      | false =>
          have closed : Kept opt w (Function.update γ t { γ t with opened := none }) :=
            kept.goes rfl ⟨nofun, (kept.fits t).runs, (kept.fits t).entered⟩ nofun
          exact closed.quiet rfl
  | sockError server ok => exact ⟨trivial, same (kept.quiet rfl)⟩
  | forward pops stepped => exact ⟨trivial, same (kept.quiet rfl)⟩
  | link quiet stepped => exact ⟨trivial, same (kept.quiet rfl)⟩

theorem keeping_sound (capacity : LoopId → ℕ) :
    (keeping A W opt).Sound (system opt k A capacity) (Addressed opt) := by
  constructor
  · intro w γ t o e r shared kept allowed addressed ran
    obtain ⟨told, after⟩ := Kept.ran kept allowed addressed (exec_cases ran)
    exact ⟨_, ⟨rfl, told⟩, after⟩
  · rintro w γ t m γ' kept rfl _
    rw [Function.update_eq_self]
    exact ⟨kept.owned, kept.made, kept.fits, kept.once, kept.active, kept.calls, kept.reads, kept.dns⟩
  · rintro w γ t m γ' kept rfl _
    rw [Function.update_eq_self]
    exact ⟨kept.owned, kept.made, kept.fits, kept.once, kept.active, kept.calls, kept.reads, kept.dns⟩
  · rintro w γ t l f γ' kept ⟨given, rfl⟩
    exact Kept.schedule kept l given
  · intro w γ l f rest kept idle pipe
    exact ⟨_, keeping_body l f, Kept.pop kept idle pipe⟩
  · intro w γ t e p kept idle woken
    obtain ⟨γ', follows, started⟩ := keeping_wake (wake_cases woken)
    have idle : γ t = {} := idle
    refine ⟨γ', follows, ?_⟩
    rcases started with rfl | ⟨eh, rfl, known, here⟩
    · rw [← idle, Function.update_eq_self]
      exact kept
    · refine Kept.goes kept ?_ ⟨nofun, ?_, nofun⟩ nofun
      · rw [idle]
        rfl
      · rintro y ⟨⟩
        exact ⟨known, here⟩

end Sound

variable {opt : Options} {k : Kernel W} {capacity : LoopId → ℕ}

theorem kept_of_reachable {s : State A W}
    (reach : ReachableIf opt k capacity (Fine (Addressed opt)) s) : (keeping A W opt).Holds s := by
  refine (keeping_sound capacity).reachable ?_ (fun _ _ fine => fine) reach
  rintro s ⟨clock, forwarder, _, rfl⟩
  refine ⟨fun _ => {}, ?_, fun _ => rfl⟩
  refine ⟨⟨fun o => ?_, fun {o} _ _ member => ?_, fun eh => ⟨nofun, ?_⟩⟩, nofun,
    fun _ => ⟨nofun, nofun, nofun⟩, nofun, .nil, nofun, nofun, .start ⟨clock, rfl⟩⟩
  · cases o <;> exact Multiset.nodup_zero
  · cases o <;> exact absurd member (Multiset.notMem_zero _)
  · rintro ⟨o, member⟩
    cases o <;> exact absurd member (Multiset.notMem_zero _)

/-- As long as there are addresses for queued callbacks, `host_port` is only looked at while the call
of the parser's callback that it is a parameter of has not returned, and the handler with its
characters is alive. -/
theorem host_port_valid {s : State A W}
    (reach : ReachableIf opt k capacity (Fine (Addressed opt)) s) :
    ∀ r ∈ s.shared.reads, r.active = true ∧ r.alive = true := by
  obtain ⟨γ, kept, _⟩ := kept_of_reachable reach
  intro r member
  rw [kept.reads r member]
  exact ⟨rfl, rfl⟩

section Runs

/-- The parser's callback has returned when `getaddrinfo` fails. -/
def unresolved : State ℕ Bytes :=
  (Runs.replay (step (system onePort Forwarder.eager ℕ fun _ => 1)) started
    (asks ⟨5, 0⟩ ++ alone (.loop .parser) 6 ++ elapses 5 ++ processes none ++
      alone (.worker 0) 2)).get (by decide +kernel)

theorem unresolved_reachable : Reachable onePort Forwarder.eager (fun _ => 1) unresolved :=
  Runs.replay_reachable _ (.start started_init) (Option.some_get _).symm

theorem host_port_dangles : ∃ s : State ℕ Bytes, Reachable onePort Forwarder.eager (fun _ => 1) s ∧
    s.shared.reads = [⟨false, false⟩] :=
  ⟨unresolved, unresolved_reachable, by decide +kernel⟩

/-- The name was resolved for one client, and what was found has expired when the next one asks. -/
def expired : State ℕ Bytes :=
  (Runs.replayIf (step (system onePort Forwarder.eager ℕ fun _ => 1)) (Fine (Addressed onePort))
    started (asks ⟨5, 0⟩ ++ alone (.loop .parser) 6 ++ elapses 5 ++ processes (some oneAddress) ++
      alone (.worker 0) 10 ++ elapses 5 ++ asks ⟨5, 1⟩ ++ alone (.loop .parser) 4)).get
    (by decide +kernel)

theorem expired_reachable :
    ReachableIf onePort Forwarder.eager (fun _ => 1) (Fine (Addressed onePort)) expired :=
  Runs.replayIf_reachable _ (.start started_init) (Option.some_get _).symm

theorem host_port_valid_expired : expired.shared.reads.length = 1 ∧
    ∀ r ∈ expired.shared.reads, r.active = true ∧ r.alive = true :=
  ⟨by decide +kernel, host_port_valid expired_reachable⟩

end Runs

end Hcproxy.Proxy
