import Hcproxy.DnsFreshness
import Hcproxy.DnsWaiting

set_option autoImplicit false

namespace Hcproxy.Dns

open Ring (Cursor)
open Threads

variable {κ A : Type} {opt : Options} {s t : State κ A} {a : Action κ A}

/-- What a call of `Resolve` knows of its callback. -/
def Call.IsFor (cb : κ) : Call κ A → Prop
  | .locking _ mine _ => mine = cb
  | .calling answer => answer.cb = cb
  | .scheduling _ _ | .done => True

/-- The callback of a call of `Resolve`. -/
def CallOf (i : ℕ) (cb : κ) (s : State κ A) : Prop := ∃ c, s.calls[i]? = some c ∧ c.IsFor cb

/-- The call of `Resolve` gives this answer, or has given it. -/
def Gives (i : ℕ) (answer : Answer κ A) (s : State κ A) : Prop :=
  s.calls[i]? = some (.calling answer) ∨ s.calls[i]? = some .done ∧ answer ∈ s.answers

/-- `for (const auto& f : callbacks) f(Advance(addr))` -/
def answersTo : List κ → Option (Cursor A) → (it index now : ℕ) → List (Lookup A) → List (Answer κ A)
  | [], _, _, _, _, _ => []
  | cb :: rest, addr, it, index, now, seen =>
    ⟨cb, addr, it, index, now, seen⟩ :: answersTo rest (advance addr) it (index + 1) now seen

/-- The answers that an execution of `ProcessCacheEntry` is about to give. -/
def Worker.answers : Worker κ A → List (Answer κ A)
  | .calling it callbacks addr index now seen => answersTo callbacks addr it index now seen
  | _ => []

/-- Of its answers an execution of `ProcessCacheEntry` has given the first ones, `m` or more. -/
def Serves (j : ℕ) (answers : List (Answer κ A)) (m : ℕ) (s : State κ A) : Prop :=
  ∃ given left, answers = given ++ left ∧ m ≤ given.length ∧ (∀ b ∈ given, b ∈ s.answers) ∧
    (left ≠ [] → ∃ w, s.workers[j]? = some w ∧ w.answers = left)

theorem answers_kept_of_moved (moved : Moved opt s a t) {b : Answer κ A} (given : b ∈ s.answers) :
    b ∈ t.answers := by
  cases moved with
  | calls | callsBack => exact List.mem_append_left _ given
  | _ => exact given

/-- A callback that is new was passed to `Resolve`. -/
theorem issued_of_moved (moved : Moved opt s a t) :
    ∀ cb ∈ t.issued, cb ∈ s.issued ∨ ∃ host_port, a = .call host_port cb := by
  intro cb member
  cases moved with
  | @call host_port other fresh =>
      rcases List.mem_append.mp member with member | member
      · exact .inl member
      · cases List.mem_singleton.mp member
        exact .inr ⟨host_port, rfl⟩
  | _ => exact .inl member

theorem callOf_kept (moved : Moved opt s a t) {i : ℕ} {cb : κ} (known : CallOf i cb s) :
    CallOf i cb t := by
  obtain ⟨c, found, isFor⟩ := known
  have moves : ∀ {n : ℕ} {x y : Call κ A}, s.calls[n]? = some x → t.calls = s.calls.set n y →
      (x.IsFor cb → y.IsFor cb) → CallOf i cb t := by
    intro n x y before calls stays
    by_cases same : n = i
    · subst same
      cases before.symm.trans found
      refine ⟨y, ?_, stays isFor⟩
      rw [calls]
      exact List.getElem?_set_self (List.getElem?_eq_some_iff.mp found).1
    · refine ⟨c, ?_, isFor⟩
      rw [calls, List.getElem?_set_ne same]
      exact found
  cases moved with
  | call fresh =>
      refine ⟨c, ?_, isFor⟩
      rw [List.getElem?_append_left (List.getElem?_eq_some_iff.mp found).1]
      exact found
  | creates before | queues before | schedules before | calls before =>
      exact moves before rfl fun _ => trivial
  | answers before cached node idle => exact moves before rfl id
  | tick | starts | erases | looksUp | skips | returns | reads | records | callsBack | relocks
  | reschedules | dangles => exact ⟨c, found, isFor⟩

theorem gives_kept (moved : Moved opt s a t) {i : ℕ} {answer : Answer κ A}
    (known : Gives i answer s) : Gives i answer t := by
  have moves : ∀ {n : ℕ} {x y : Call κ A}, s.calls[n]? = some x → x ≠ .done →
      (∀ b, x ≠ .calling b) → t.calls = s.calls.set n y → t.answers = s.answers →
      Gives i answer t := by
    intro n x y before active notCalling calls answers
    have other : n ≠ i := by
      rintro rfl
      rcases known with found | ⟨found, -⟩
      · exact notCalling answer (Option.some.inj (before.symm.trans found))
      · exact active (Option.some.inj (before.symm.trans found))
    rw [Gives, calls, answers, List.getElem?_set_ne other]
    exact known
  cases moved with
  | call fresh =>
      rcases known with found | ⟨found, given⟩
      · refine Or.inl ?_
        rw [List.getElem?_append_left (List.getElem?_eq_some_iff.mp found).1]
        exact found
      · refine Or.inr ⟨?_, given⟩
        rw [List.getElem?_append_left (List.getElem?_eq_some_iff.mp found).1]
        exact found
  | creates before | queues before | schedules before | answers before =>
      exact moves before (by simp) (by simp) rfl rfl
  | @calls n answer' before =>
      by_cases same : n = i
      · subst same
        rcases known with found | ⟨found, -⟩
        · cases before.symm.trans found
          refine Or.inr ⟨?_, List.mem_append_right _ (List.mem_singleton_self _)⟩
          exact List.getElem?_set_self (List.getElem?_eq_some_iff.mp found).1
        · cases before.symm.trans found
      · rw [Gives, List.getElem?_set_ne same]
        exact known.imp id fun ⟨found, given⟩ => ⟨found, List.mem_append_left _ given⟩
  | callsBack found => exact known.imp id fun ⟨found, given⟩ => ⟨found, List.mem_append_left _ given⟩
  | tick | starts | erases | looksUp | skips | returns | reads | records | relocks
  | reschedules | dangles => exact known

/-- `cb(std::move(addr))` -/
theorem Gives.called {i : ℕ} {answer : Answer κ A} (single : SingleTask s)
    (known : Gives i answer s) (moved : Moved opt s (.answerCall i) t) : answer ∈ t.answers := by
  rcases gives_kept moved known with found | ⟨-, given⟩
  · cases moved with
    | calls before =>
        rw [List.getElem?_set_self (List.getElem?_eq_some_iff.mp before).1] at found
        cases found
    | dangles before uses erased => exact absurd erased (single.node_ne_none before uses)
  · exact given

/-- Another step than that of the worker leaves it with what it has to give. -/
theorem Serves.of_other {j m : ℕ} {answers : List (Answer κ A)} (known : Serves j answers m s)
    (given : ∀ b ∈ s.answers, b ∈ t.answers)
    (workers : ∀ w, s.workers[j]? = some w → w.answers ≠ [] → t.workers[j]? = some w) :
    Serves j answers m t := by
  obtain ⟨front, left, whole, enough, before, rest⟩ := known
  refine ⟨front, left, whole, enough, fun b member => given b (before b member), fun more => ?_⟩
  obtain ⟨w, found, same⟩ := rest more
  exact ⟨w, workers w found (same ▸ more), same⟩

theorem Serves.weaken {j m n : ℕ} {answers : List (Answer κ A)} (known : Serves j answers m s)
    (less : n ≤ m) : Serves j answers n s := by
  obtain ⟨front, left, whole, enough, before, rest⟩ := known
  exact ⟨front, left, whole, Nat.le_trans less enough, before, rest⟩

/-- The worker has called the next callback, if there was one. -/
theorem Serves.next {j m : ℕ} {answers : List (Answer κ A)} (known : Serves j answers m s)
    {it index now : ℕ} {cb : κ} {rest : List κ} {addr : Option (Cursor A)} {seen : List (Lookup A)}
    (found : s.workers[j]? = some (.calling it (cb :: rest) addr index now seen))
    (workers : t.workers = s.workers.set j (.calling it rest (advance addr) (index + 1) now seen))
    (given : t.answers = s.answers ++ [⟨cb, addr, it, index, now, seen⟩]) (more : m < answers.length) :
    Serves j answers (m + 1) t := by
  have before : ∀ b ∈ s.answers, b ∈ t.answers := by
    intro b member
    rw [given]
    exact List.mem_append_left _ member
  obtain ⟨front, left, whole, enough, called, waits⟩ := known
  by_cases empty : left = []
  · subst empty
    refine ⟨front, [], whole, ?_, fun b member => before b (called b member), fun none => absurd rfl none⟩
    rw [whole, List.append_nil] at more
    exact more
  · obtain ⟨w, same, mine⟩ := waits empty
    cases found.symm.trans same
    refine ⟨front ++ [⟨cb, addr, it, index, now, seen⟩],
      answersTo rest (advance addr) it (index + 1) now seen, ?_, ?_, ?_, fun _ => ?_⟩
    · rw [whole, ← mine, List.append_assoc]
      rfl
    · rw [List.length_append]
      exact Nat.add_le_add_right enough 1
    · intro b member
      rcases List.mem_append.mp member with member | member
      · exact before b (called b member)
      · rw [given]
        exact List.mem_append_right _ member
    · refine ⟨.calling it rest (advance addr) (index + 1) now seen, ?_, rfl⟩
      rw [workers]
      exact List.getElem?_set_self (List.getElem?_eq_some_iff.mp found).1

theorem serves_kept (single : SingleTask s) (moved : Moved opt s a t) {j m : ℕ}
    {answers : List (Answer κ A)} (known : Serves j answers m s) : Serves j answers m t := by
  have given : ∀ b ∈ s.answers, b ∈ t.answers := fun b => answers_kept_of_moved moved
  have moves : ∀ {n : ℕ} {x y : Worker κ A}, s.workers[n]? = some x → x.answers = [] →
      t.workers = s.workers.set n y → Serves j answers m t := by
    intro n x y found none workers
    refine known.of_other given fun w same more => ?_
    rw [workers, List.getElem?_set_ne, same]
    rintro rfl
    cases found.symm.trans same
    exact more none
  cases moved with
  | tick | call | creates | queues | answers | schedules | calls =>
      exact known.of_other given fun w found _ => found
  | starts found due =>
      refine known.of_other given fun w found _ => ?_
      rw [List.getElem?_append_left (List.getElem?_eq_some_iff.mp found).1]
      exact found
  | erases found | looksUp found | skips found | returns found | reads found | records found
  | relocks found | reschedules found => exact moves found rfl rfl
  | @callsBack n it index now cb rest addr seen found =>
      by_cases same : n = j
      · subst same
        by_cases more : m < answers.length
        · exact (known.next found rfl rfl more).weaken (Nat.le_succ m)
        · obtain ⟨front, left, whole, enough, called, waits⟩ := known
          have none : left = [] := by
            apply List.eq_nil_of_length_eq_zero
            have length := congrArg List.length whole
            rw [List.length_append] at length
            omega
          exact ⟨front, left, whole, enough, fun b member => given b (called b member),
            fun some => absurd none some⟩
      · refine known.of_other given fun w found _ => ?_
        rw [List.getElem?_set_ne same]
        exact found
  | dangles found uses erased => exact absurd erased (single.node_ne_none found uses)

/-- After `f(Advance(addr))` the next of the answers has been given. -/
theorem Serves.called {j m : ℕ} {answers : List (Answer κ A)} (single : SingleTask s)
    (known : Serves j answers m s) (moved : Moved opt s (.callback j) t)
    (more : m < answers.length) : Serves j answers (m + 1) t := by
  cases moved with
  | callsBack found => exact known.next found rfl rfl more
  | dangles found uses erased => exact absurd erased (single.node_ne_none found uses)

theorem Serves.mem {j m : ℕ} {answers : List (Answer κ A)} (known : Serves j answers m s) {i : ℕ}
    {b : Answer κ A} (before : i < m) (found : answers[i]? = some b) : b ∈ s.answers := by
  obtain ⟨front, left, whole, enough, called, -⟩ := known
  rw [whole, List.getElem?_append_left (Nat.lt_of_lt_of_le before enough)] at found
  exact called b (List.mem_of_getElem? found)

/-- Only callbacks that were passed to `Resolve` are called. -/
theorem issued_of_answer [DecidableEq κ] (reach : Reachable opt s) {b : Answer κ A}
    (given : b ∈ s.answers) : b.cb ∈ s.issued := by
  have all := reach.placed.waiting b.cb
  have one : 0 < (s.answers.map Answer.cb).count b.cb :=
    List.count_pos_iff.mpr (List.mem_map_of_mem given)
  apply List.count_pos_iff.mp
  omega

/-- An address that a callback was called with comes from the last success of the entry for the
name that the callback was passed with. -/
theorem source_of_answer [DecidableEq κ] {host : κ → HostPort}
    (reach : ReachableIf opt (Named host) s) {b : Answer κ A} (given : b ∈ s.answers)
    {q : Cursor A} (some : b.addr = some q) :
    s.key b.node = .some (host b.cb) ∧ ∃ l, latest b.seen = .some l ∧ l.Gave q := by
  have fresh : NoStale opt s :=
    noStale_of_reachable (reach.mono fun _ _ ⟨a, _, stepped⟩ => ⟨a, trivial, stepped⟩)
  refine ⟨(keyed_of_reachable reach).given b given, ?_⟩
  rcases fresh.given b given with current | own
  · obtain ⟨l, _, last, gave, _⟩ := current q some
    exact ⟨l, last, gave⟩
  · obtain ⟨l, last, _, gave, _⟩ := own q some
    exact ⟨l, last, gave⟩

end Hcproxy.Dns
