import Hcproxy.Lib.Histories
import Hcproxy.ProxySteps

set_option autoImplicit false

namespace Hcproxy.Proxy

open Hcproxy.Dns (HostPort)
open Hcproxy.Forwarder (Kernel)
open Programs

variable {A W : Type} {opt : Options} {k : Kernel W}

section Ran

variable {s t : Shared A W} {o : Op A W} {r : o.Res}

/-- An operation makes at most one step of the resolver; only `Resolve` passes it a callback, and
only the end of a lookup passes it addresses. -/
theorem ran_dns (ran : Ran opt k s o r t) : t.dns = s.dns ∨
    ∃ a, Dns.step opt.dns s.dns a = some t.dns ∧
      (∀ host_port cb, a = .call host_port cb → o = .resolve host_port cb) ∧
      ∀ j addr, a = .returnResolve j addr → o = .returnResolve j := by
  have passes : ∀ {a : Dns.Action Callback A}, s.dnsStep opt a = some t →
      (∀ host_port cb, a = .call host_port cb → o = .resolve host_port cb) →
      (∀ j addr, a = .returnResolve j addr → o = .returnResolve j) → t.dns = s.dns ∨
        ∃ a, Dns.step opt.dns s.dns a = some t.dns ∧
          (∀ host_port cb, a = .call host_port cb → o = .resolve host_port cb) ∧
          ∀ j addr, a = .returnResolve j addr → o = .returnResolve j := by
    intro a stepped called looked
    obtain ⟨dns, moved, rfl⟩ := dnsStep_eq stepped
    exact .inr ⟨a, moved, called, looked⟩
  cases ran with
  | resolve stepped =>
      apply passes stepped
      · intro host_port cb same
        cases same
        rfl
      · simp
  | returnResolve stepped =>
      apply passes stepped
      · simp
      · intro j addr same
        cases same
        rfl
  | lockCall stepped | scheduleCall stepped | answerCall stepped | start stepped
  | lockWorker stepped | readClock stepped | lockRecord stepped
  | callback stepped | relock stepped | schedule stepped | tick stepped =>
      exact passes stepped (by simp) (by simp)
  | accept opened | socket opened =>
      obtain ⟨_, _, rfl⟩ := open_eq opened
      exact .inl rfl
  | _ => exact .inl rfl

/-- `Resolve` has been called. -/
theorem ran_resolve {host_port : HostPort} {cb : Callback} {call : ℕ}
    (ran : Ran opt k s (.resolve host_port cb) call t) :
    cb ∉ s.dns.issued ∧ call = s.dns.calls.length ∧ t.dns = { s.dns with
      calls := s.dns.calls ++ [.locking host_port cb s.dns.clock]
      issued := s.dns.issued ++ [cb] } := by
  cases ran with
  | resolve stepped =>
      obtain ⟨dns, moved, rfl⟩ := dnsStep_eq stepped
      simp only [Dns.step] at moved
      split at moved
      · cases moved
      · rename_i fresh
        cases moved
        exact ⟨fresh, rfl, rfl⟩

/-- Handlers are added and removed by name. -/
theorem ran_member (ran : Ran opt k s o r t) {eh : Handler} :
    eh ∈ t.registered ↔ o = .add eh ∨ eh ∈ s.registered ∧ o ≠ .remove eh := by
  have quiet : o ≠ .add eh → o ≠ .remove eh →
      (eh ∈ s.registered ↔ o = .add eh ∨ eh ∈ s.registered ∧ o ≠ .remove eh) := by
    intro adds removes
    simp [adds, removes]
  cases ran with
  | add absent =>
      show eh ∈ _ :: s.registered ↔ _
      rw [List.mem_cons, Op.add.injEq, eq_comm]
      simp
  | remove member =>
      show eh ∈ s.registered.filter _ ↔ _
      rw [List.mem_filter, decide_eq_true_eq, Ne, eq_comm]
      simp
  | resolve stepped | lockCall stepped | scheduleCall stepped | answerCall stepped | start stepped
  | lockWorker stepped | returnResolve stepped | readClock stepped | lockRecord stepped
  | callback stepped | relock stepped | schedule stepped | tick stepped =>
      obtain ⟨_, _, rfl⟩ := dnsStep_eq stepped
      exact quiet (by simp) (by simp)
  | accept opened | socket opened =>
      obtain ⟨_, _, rfl⟩ := open_eq opened
      exact quiet (by simp) (by simp)
  | _ => exact quiet (by simp) (by simp)

theorem ran_registered (ran : Ran opt k s o r t) :
    ∀ eh ∈ t.registered, eh ∈ s.registered ∨ o = .add eh := by
  intro eh member
  exact ((ran_member ran).mp member).symm.imp And.left id

/-- Serial numbers are not used again. -/
theorem ran_serials (ran : Ran opt k s o r t) : s.serials ≤ t.serials := by
  cases ran with
  | resolve stepped | lockCall stepped | scheduleCall stepped | answerCall stepped | start stepped
  | lockWorker stepped | returnResolve stepped | readClock stepped | lockRecord stepped
  | callback stepped | relock stepped | schedule stepped | tick stepped =>
      obtain ⟨_, _, rfl⟩ := dnsStep_eq stepped
      exact Nat.le_refl _
  | accept opened | socket opened =>
      obtain ⟨_, _, rfl⟩ := open_eq opened
      exact Nat.le_succ _
  | _ => exact Nat.le_refl _

theorem ran_links (ran : Ran opt k s o r t) :
    ∀ link ∈ t.links, link ∈ s.links ∨ o = .forward link.1 link.2 := by
  intro link member
  cases ran with
  | forward =>
      rcases List.mem_append.mp member with member | member
      · exact .inl member
      · cases List.mem_singleton.mp member
        exact .inr rfl
  | resolve stepped | lockCall stepped | scheduleCall stepped | answerCall stepped | start stepped
  | lockWorker stepped | returnResolve stepped | readClock stepped | lockRecord stepped
  | callback stepped | relock stepped | schedule stepped | tick stepped =>
      obtain ⟨_, _, rfl⟩ := dnsStep_eq stepped
      exact .inl member
  | accept opened | socket opened =>
      obtain ⟨_, _, rfl⟩ := open_eq opened
      exact .inl member
  | _ => exact .inl member

end Ran

/-- What the threads share, with the operations that they have made. -/
abbrev Recorded (A W : Type) := Shared A W × List (Event (signature A W))

section History

variable (A) (opt) (k) (capacity : LoopId → ℕ)

/-- The proxy with its history. -/
abbrev recording : System (signature A W) Thread (Recorded A W) (Reply A W) :=
  (system opt k A capacity).recorded

variable {A opt k capacity}

theorem records_of_exec {o : Op A W} {e : Reply A W} {r : o.Res} {s t : Recorded A W}
    (ran : (recording A opt k capacity).exec o e s = some (r, t)) :
    Ran opt k s.1 o r t.1 ∧ t.2 = s.2 ++ [⟨o, r⟩] := by
  obtain ⟨ran, history⟩ := recorded_exec ran
  exact ⟨exec_cases ran, history⟩

variable (opt k capacity)

/-- The runs of the proxy, with what its threads have done. -/
def History : Programs.State (signature A W) Thread (Recorded A W) → Prop :=
  Runs.Reachable (fun s => s.shared.2 = [] ∧ Init s.forget)
    (Runs.Moves (step (recording A opt k capacity)) Runs.always)

variable {opt k capacity}

/-- Every run of the proxy has a history. -/
theorem history_of_reachable {s : State A W} (reach : Reachable opt k capacity s) :
    ∃ t, History opt k capacity t ∧ t.forget = s := exists_recorded reach

end History

end Hcproxy.Proxy
