import Mathlib.Data.Int.Notation
import Hcproxy.LoopDispatch

set_option autoImplicit false

namespace Hcproxy.Loop

/-- Clocks count nanoseconds. -/
def millisecond : ℕ := 1000000

/-- `ceil<milliseconds>`. -/
def ceilMs (duration : ℕ) : ℕ := (duration + (millisecond - 1)) / millisecond

/-- The last argument of `epoll_wait` in `EPoll::Wait`. The count is converted to `int`. -/
def EPoll.ms : Option ℕ → ℤ
  | some timeout => max 0 (BitVec.ofNat 32 (ceilMs timeout)).toInt
  | none => -1

/-- How long `epoll_wait` waits when nothing happens. -/
def EPoll.limit (timeout : ℕ) : ℕ := (EPoll.ms (some timeout)).toNat * millisecond

/-- How long `epoll_wait` takes when the first event arrives after `arrival`. -/
def EPoll.elapsed (timeout : ℕ) (arrival : Option ℕ) : ℕ :=
  match arrival with
  | some time => min time (EPoll.limit timeout)
  | none => EPoll.limit timeout

/-- Time passes in `epoll_wait` only. -/
inductive TimedAction
  | sleep (arrival : Option ℕ) (batch : List (Interest × Events))
  | act (action : Action)

variable (timeout : ℕ)

/-- `epoll_wait` returns at the first event, or with none when its time is over. -/
def State.sleep (s : State) (arrival : Option ℕ) (batch : List (Interest × Events)) :
    Option State :=
  if batch = [] ↔ ∀ time ∈ arrival, EPoll.limit timeout < time then
    (step timeout s (.tick (EPoll.elapsed timeout arrival))).bind fun s =>
      step timeout s (.ready batch)
  else none

def timedStep (s : State) : TimedAction → Option State
  | .sleep arrival batch => s.sleep timeout arrival batch
  | .act (.tick _) | .act (.ready _) => none
  | .act action => step timeout s action

/-- What a handler or a scheduled function may do. -/
def TimedAction.Allowed (s : State) : TimedAction → Prop
  | .sleep _ _ => True
  | .act action => Loop.Allowed s action

/-- The first deadline is less than a millisecond away when the wait ends: an event arrives by
then, or the whole timeout is over. And a handler that is due keeps its deadline until
`OnTimeout`. -/
def Timely (s : State) : TimedAction → Prop
  | .sleep arrival _ => ∀ a r, s.expire.head = some a → s.reg a = some r →
      (∃ time ∈ arrival, s.clock + time < r.deadline + millisecond) ∨
        s.clock + ceilMs timeout * millisecond < r.deadline + millisecond
  | .act (.remove a) | .act (.refresh a) => ∀ r, s.reg a = some r →
      s.clock < r.deadline ∨ s.phase = .timingOut a
  | .act _ => True

instance (s : State) : ∀ action : TimedAction, Decidable (action.Allowed s)
  | .sleep _ _ => isTrue trivial
  | .act action => inferInstanceAs (Decidable (Loop.Allowed s action))

instance (phase : Phase) (a : Addr) : Decidable (phase = .timingOut a) :=
  match phase with
  | .timingOut b => decidable_of_iff (b = a) (by simp)
  | .waiting | .polling _ | .dispatching _ | .handling _ _ | .running _ | .expiring
  | .stopped _ => isFalse nofun

instance (s : State) (action : TimedAction) : Decidable (Timely timeout s action) :=
  match action with
  | .sleep arrival _ => decidable_of_iff
      ((s.expire.head.all fun a => (s.reg a).all fun r => decide
        ((∃ time ∈ arrival, s.clock + time < r.deadline + millisecond) ∨
          s.clock + ceilMs timeout * millisecond < r.deadline + millisecond)) = true) (by
        simp only [Timely, Option.all_eq_true, decide_eq_true_eq]
        exact ⟨fun all a r head => all a head r, fun all a head r => all a r head⟩)
  | .act (.remove a) | .act (.refresh a) => decidable_of_iff
      ((s.reg a).all (fun r => decide (s.clock < r.deadline ∨ s.phase = .timingOut a)) = true) (by
        simp only [Timely, Option.all_eq_true, decide_eq_true_eq])
  | .act (.tick _) | .act (.wait _) | .act (.ready _) | .act .next | .act .back
  | .act (.construct _ _) | .act (.add _ _) | .act (.modify _ _) | .act (.incRef _)
  | .act (.decRef _) | .act (.close _) => isTrue trivial

/-- The deadline has been met so far: `OnTimeout` is called less than a millisecond after it,
unless the handler is refreshed or removed before. -/
def Promise.Kept (clock : ℕ) (p : Promise) : Prop :=
  match p.outcome with
  | .pending => clock < p.deadline + millisecond
  | .withdrawn time => time < p.deadline
  | .fired time => p.deadline ≤ time ∧ time < p.deadline + millisecond

/-- The loop of the timed runs. -/
def Timed (pipe : Fd) (allowed : State → TimedAction → Prop) : State → Prop :=
  Runs.Reachable (Init pipe) (Runs.Moves (timedStep timeout) allowed)

/-- Only there can the promise of a registered handler be settled: its `OnTimeout` is running, or
nothing runs any more. -/
def Phase.Excuses (phase : Phase) (a : Addr) : Prop :=
  phase = .timingOut a ∨ ∃ why, phase = .stopped why

theorem Phase.not_excuses {phase : Phase} {a : Addr} (running : phase.Idle ∨ phase.Inside) :
    ¬ phase.Excuses a := by
  rintro (rfl | ⟨why, rfl⟩) <;> exact running.elim False.elim False.elim

/-- The deadlines of the registered handlers and what has been promised. -/
structure Punctual (s : State) : Prop where
  kept : ∀ p ∈ s.promises, p.Kept s.clock
  owned : ∀ p ∈ s.promises, p.outcome = .pending →
    ∃ a r, s.reg a = some r ∧ p = ⟨r.serial, r.deadline, .pending⟩
  made : ∀ a r, s.reg a = some r → ⟨r.serial, r.deadline, .pending⟩ ∈ s.promises ∨
    s.phase.Excuses a ∧ ∃ time, ⟨r.serial, r.deadline, .fired time⟩ ∈ s.promises
  later : ∀ a r, s.phase = .timingOut a → s.reg a = some r →
    ⟨r.serial, r.deadline, .pending⟩ ∈ s.promises → s.clock < r.deadline
  idle : s.phase.Idle → ∀ a r, s.reg a = some r → s.clock < r.deadline

variable {timeout : ℕ} {s t : State}

section Settle

variable {promises : List Promise} {serial : ℕ} {outcome : Outcome}

theorem mem_settle {p : Promise} (member : p ∈ promises)
    (other : p.serial ≠ serial ∨ p.outcome ≠ .pending) : p ∈ settle promises serial outcome := by
  refine List.mem_map.mpr ⟨p, member, if_neg ?_⟩
  rintro ⟨same, pending⟩
  rcases other with other | other
  · exact other same
  · exact other pending

theorem settled_mem {deadline : ℕ} (member : ⟨serial, deadline, .pending⟩ ∈ promises) :
    ⟨serial, deadline, outcome⟩ ∈ settle promises serial outcome :=
  List.mem_map.mpr ⟨_, member, if_pos ⟨rfl, rfl⟩⟩

theorem of_mem_settle {p : Promise} (member : p ∈ settle promises serial outcome) :
    (p ∈ promises ∧ (p.serial ≠ serial ∨ p.outcome ≠ .pending)) ∨
      ∃ deadline, ⟨serial, deadline, .pending⟩ ∈ promises ∧ p = ⟨serial, deadline, outcome⟩ := by
  obtain ⟨q, old, written⟩ := List.mem_map.mp member
  split at written
  · rename_i pending
    subst written
    obtain ⟨rfl, pending⟩ := pending
    refine .inr ⟨q.deadline, ?_, rfl⟩
    rw [← pending]
    exact old
  · rename_i other
    subst written
    refine .inl ⟨old, ?_⟩
    by_cases same : q.serial = serial
    · exact .inr fun pending => other ⟨same, pending⟩
    · exact .inl same

end Settle

theorem Safe.same_addr (safe : Safe timeout s) {a b : Addr} {r q : Reg} (one : s.reg a = some r)
    (other : s.reg b = some q) (serial : r.serial = q.serial) : a = b := by
  obtain ⟨_, inv, _⟩ := safe.inv
  refine inv.objects.unique a b r.serial (State.live_of_reg one) ?_
  rw [serial]
  exact State.live_of_reg other

/-- A pending promise of a registered handler is about its deadline. -/
theorem Punctual.deadline_eq (punctual : Punctual s) (safe : Safe timeout s) {a : Addr} {r : Reg}
    {deadline : ℕ} (was : s.reg a = some r)
    (member : ⟨r.serial, deadline, .pending⟩ ∈ s.promises) : deadline = r.deadline := by
  obtain ⟨b, q, other, same⟩ := punctual.owned _ member rfl
  obtain ⟨serial, rfl, _⟩ := Promise.mk.inj same
  obtain rfl := safe.same_addr was other serial
  rw [was] at other
  cases other
  rfl

/-- Settling the promise of a registered handler. -/
theorem Punctual.settled (punctual : Punctual s) (safe : Safe timeout s) {a : Addr} {r : Reg}
    (was : s.reg a = some r) {outcome : Outcome}
    (fine : ⟨r.serial, r.deadline, .pending⟩ ∈ s.promises →
      Promise.Kept s.clock ⟨r.serial, r.deadline, outcome⟩) :
    ∀ p ∈ settle s.promises r.serial outcome, p.Kept s.clock := by
  intro p member
  rcases of_mem_settle member with ⟨old, _⟩ | ⟨deadline, pending, rfl⟩
  · exact punctual.kept p old
  · obtain rfl := punctual.deadline_eq safe was pending
    exact fine pending

/-- The other handlers' promises stay. -/
theorem Punctual.owned_settled (punctual : Punctual s) {a : Addr} {r : Reg}
    (was : s.reg a = some r) {outcome : Outcome} (past : outcome ≠ .pending) :
    ∀ p ∈ settle s.promises r.serial outcome, p.outcome = .pending →
      ∃ b q, b ≠ a ∧ s.reg b = some q ∧ p = ⟨q.serial, q.deadline, .pending⟩ := by
  intro p member pending
  rcases of_mem_settle member with ⟨old, other⟩ | ⟨deadline, _, rfl⟩
  · obtain ⟨b, q, some, rfl⟩ := punctual.owned p old pending
    refine ⟨b, q, ?_, some, rfl⟩
    rintro rfl
    rw [was] at some
    cases some
    rcases other with other | other <;> exact other rfl
  · exact absurd pending past

theorem Safe.mem_settle_other (safe : Safe timeout s) {a b : Addr} {r q : Reg}
    (was : s.reg a = some r) (other : b ≠ a) (here : s.reg b = some q) {outcome outcome' : Outcome}
    {deadline : ℕ} (member : ⟨q.serial, deadline, outcome'⟩ ∈ s.promises) :
    ⟨q.serial, deadline, outcome'⟩ ∈ settle s.promises r.serial outcome :=
  mem_settle member (.inl fun same => other (safe.same_addr here was same))

/-- Nothing has happened to handlers and promises, and no time has passed. -/
theorem Punctual.still (punctual : Punctual s) (reg : t.reg = s.reg)
    (promises : t.promises = s.promises) (clock : t.clock = s.clock)
    (excuses : ∀ a, s.phase.Excuses a → t.phase.Excuses a ∨ s.reg a = none)
    (later : ∀ a, t.phase = .timingOut a → s.phase = .timingOut a)
    (idle : t.phase.Idle → ∀ a r, s.reg a = some r → s.clock < r.deadline) : Punctual t := by
  refine ⟨?_, ?_, fun a r some => ?_, fun a r phase some => ?_, ?_⟩
  · rw [promises, clock]
    exact punctual.kept
  · rw [promises, reg]
    exact punctual.owned
  · rw [reg] at some
    rw [promises]
    refine (punctual.made a r some).imp id ?_
    rintro ⟨excused, fired⟩
    rcases excuses a excused with excused' | gone
    · exact ⟨excused', fired⟩
    · rw [gone] at some
      cases some
  · rw [reg] at some
    rw [promises, clock]
    exact punctual.later a r (later a phase) some
  · rw [reg, clock]
    exact idle

/-- The promise of a handler that is refreshed is withdrawn before its deadline. -/
theorem Punctual.refreshed (positive : 0 < timeout) (punctual : Punctual s)
    (safe : Safe timeout s) {a : Addr} {r : Reg} (refreshed : Refreshed timeout s t a r)
    (clock : t.clock = s.clock)
    (before : ⟨r.serial, r.deadline, .pending⟩ ∈ s.promises → s.clock < r.deadline)
    (excuses : ∀ b, b ≠ a → s.phase.Excuses b → t.phase.Excuses b)
    (later : ∀ b, t.phase = .timingOut b → s.phase = .timingOut b)
    (busy : ¬ t.phase.Idle) : Punctual t := by
  obtain ⟨was, reg, _, promises⟩ := refreshed
  have itself : t.reg a = some { r with deadline := s.clock + timeout } := by
    rw [reg, Function.update_self]
  have otherwise : ∀ b, b ≠ a → t.reg b = s.reg b := by
    intro b other
    rw [reg, Function.update_of_ne other]
  have new : (⟨r.serial, s.clock + timeout, .pending⟩ : Promise) ∈ t.promises := by
    rw [promises]
    exact List.mem_append_right _ (List.mem_singleton.mpr rfl)
  refine ⟨?_, ?_, fun b q some => ?_, fun b q phase some member => ?_, fun idle => absurd idle busy⟩
  · have withdrawn : ⟨r.serial, r.deadline, .pending⟩ ∈ s.promises →
        Promise.Kept s.clock ⟨r.serial, r.deadline, .withdrawn s.clock⟩ := before
    rw [promises, clock]
    intro p member
    rcases List.mem_append.mp member with old | new
    · exact punctual.settled safe was withdrawn p old
    · rw [List.mem_singleton.mp new]
      change s.clock < s.clock + timeout + millisecond
      omega
  · rw [promises]
    intro p member pending
    rcases List.mem_append.mp member with old | new
    · obtain ⟨b, q, other, some, rfl⟩ :=
        punctual.owned_settled was (by simp) p old pending
      exact ⟨b, q, (otherwise b other).trans some, rfl⟩
    · exact ⟨a, _, itself, List.mem_singleton.mp new⟩
  · by_cases it : b = a
    · subst it
      rw [itself] at some
      cases some
      exact .inl new
    · rw [otherwise b it] at some
      have stays : ∀ outcome, ⟨q.serial, q.deadline, outcome⟩ ∈ s.promises →
          ⟨q.serial, q.deadline, outcome⟩ ∈ t.promises := by
        intro outcome member
        rw [promises]
        exact List.mem_append_left _ (safe.mem_settle_other was it some member)
      refine (punctual.made b q some).imp (stays _) ?_
      rintro ⟨excused, time, fired⟩
      exact ⟨excuses b it excused, time, stays _ fired⟩
  · rw [clock]
    by_cases it : b = a
    · subst it
      rw [itself] at some
      cases some
      exact Nat.lt_add_of_pos_right positive
    · rw [otherwise b it] at some
      refine punctual.later b q (later b phase) some ?_
      rw [promises] at member
      rcases List.mem_append.mp member with old | new
      · rcases of_mem_settle old with ⟨old, _⟩ | ⟨deadline, _, same⟩
        · exact old
        · cases congrArg Promise.outcome same
      · have same := congrArg Promise.serial (List.mem_singleton.mp new)
        exact absurd (safe.same_addr some was same) it

theorem Punctual.removed (punctual : Punctual s) (safe : Safe timeout s) {a : Addr} {r : Reg}
    (was : s.reg a = some r) (reg : t.reg = Function.update s.reg a none)
    (promises : t.promises = settle s.promises r.serial (.withdrawn s.clock))
    (clock : t.clock = s.clock) (phase : t.phase = s.phase)
    (before : ⟨r.serial, r.deadline, .pending⟩ ∈ s.promises → s.clock < r.deadline)
    (busy : ¬ t.phase.Idle) : Punctual t := by
  have only : ∀ b q, t.reg b = some q → b ≠ a ∧ s.reg b = some q := by
    intro b q some
    rw [reg] at some
    by_cases it : b = a
    · subst it
      rw [Function.update_self] at some
      cases some
    · rw [Function.update_of_ne it] at some
      exact ⟨it, some⟩
  refine ⟨?_, ?_, fun b q some => ?_, fun b q running some member => ?_, fun idle => absurd idle busy⟩
  · have withdrawn : ⟨r.serial, r.deadline, .pending⟩ ∈ s.promises →
        Promise.Kept s.clock ⟨r.serial, r.deadline, .withdrawn s.clock⟩ := before
    rw [promises, clock]
    exact punctual.settled safe was withdrawn
  · rw [promises, reg]
    intro p member pending
    obtain ⟨b, q, other, some, rfl⟩ := punctual.owned_settled was (by simp) p member pending
    exact ⟨b, q, by rwa [Function.update_of_ne other], rfl⟩
  · obtain ⟨it, some⟩ := only b q some
    rw [promises, phase]
    refine (punctual.made b q some).imp (safe.mem_settle_other was it some) ?_
    rintro ⟨excused, time, fired⟩
    exact ⟨excused, time, safe.mem_settle_other was it some fired⟩
  · obtain ⟨it, some⟩ := only b q some
    rw [clock]
    rw [phase] at running
    refine punctual.later b q running some ?_
    rw [promises] at member
    rcases of_mem_settle member with ⟨old, _⟩ | ⟨deadline, _, same⟩
    · exact old
    · cases congrArg Promise.outcome same

theorem Punctual.added (positive : 0 < timeout) (punctual : Punctual s) (safe : Safe timeout s)
    {a : Addr} {k : ℕ} {fd : Fd} (new : s.reg a = none) (live : s.live a = some k)
    (reg : t.reg = Function.update s.reg a (some ⟨k, fd, s.clock + timeout⟩))
    (promises : t.promises = s.promises ++ [⟨k, s.clock + timeout, .pending⟩])
    (clock : t.clock = s.clock) (phase : t.phase = s.phase) (busy : ¬ t.phase.Idle) :
    Punctual t := by
  have otherwise : ∀ b q, s.reg b = some q → t.reg b = some q := by
    intro b q some
    have it : b ≠ a := by
      rintro rfl
      rw [new] at some
      cases some
    rwa [reg, Function.update_of_ne it]
  have split : ∀ b q, t.reg b = some q →
      b = a ∧ q = ⟨k, fd, s.clock + timeout⟩ ∨ s.reg b = some q := by
    intro b q some
    rw [reg] at some
    by_cases it : b = a
    · subst it
      rw [Function.update_self] at some
      exact .inl ⟨rfl, (Option.some.inj some).symm⟩
    · rw [Function.update_of_ne it] at some
      exact .inr some
  refine ⟨?_, ?_, fun b q some => ?_, fun b q running some member => ?_, fun idle => absurd idle busy⟩
  · rw [promises, clock]
    intro p member
    rcases List.mem_append.mp member with old | new
    · exact punctual.kept p old
    · rw [List.mem_singleton.mp new]
      change s.clock < s.clock + timeout + millisecond
      omega
  · rw [promises]
    intro p member pending
    rcases List.mem_append.mp member with old | new
    · obtain ⟨b, q, some, same⟩ := punctual.owned p old pending
      exact ⟨b, q, otherwise b q some, same⟩
    · exact ⟨a, _, by rw [reg, Function.update_self], List.mem_singleton.mp new⟩
  · rw [promises, phase]
    rcases split b q some with ⟨rfl, rfl⟩ | some
    · exact .inl (List.mem_append_right _ (List.mem_singleton.mpr rfl))
    · refine (punctual.made b q some).imp (List.mem_append_left _) ?_
      rintro ⟨excused, time, fired⟩
      exact ⟨excused, time, List.mem_append_left _ fired⟩
  · rw [clock]
    rw [phase] at running
    rcases split b q some with ⟨rfl, rfl⟩ | some
    · exact Nat.lt_add_of_pos_right positive
    · refine punctual.later b q running some ?_
      rw [promises] at member
      rcases List.mem_append.mp member with old | fresh
      · exact old
      · -- an object is registered at most once
        have same : q.serial = k := congrArg Promise.serial (List.mem_singleton.mp fresh)
        obtain ⟨_, inv, _⟩ := safe.inv
        have here := inv.objects.unique b a k (same ▸ State.live_of_reg some) live
        subst here
        rw [new] at some
        cases some

/-- `OnTimeout` is called for the head of `expire_`. -/
theorem Punctual.expired (punctual : Punctual s) (safe : Safe timeout s) {a : Addr} {r : Reg}
    (was : s.reg a = some r) (due : r.deadline ≤ s.clock) (reg : t.reg = s.reg)
    (clock : t.clock = s.clock) (before : s.phase = .expiring) (after : t.phase = .timingOut a)
    (promises : t.promises = settle s.promises r.serial (.fired s.clock)) : Punctual t := by
  have promised : ∀ b q, s.reg b = some q → ⟨q.serial, q.deadline, .pending⟩ ∈ s.promises := by
    intro b q some
    rcases punctual.made b q some with pending | ⟨excused, _⟩
    · exact pending
    · exact absurd excused (Phase.not_excuses (.inr (by rw [before]; trivial)))
  refine ⟨?_, ?_, fun b q some => ?_, fun b q running some member => ?_, fun idle => ?_⟩
  · rw [promises, clock]
    refine punctual.settled safe was fun pending => ⟨due, ?_⟩
    exact punctual.kept _ pending
  · rw [promises, reg]
    intro p member pending
    obtain ⟨b, q, _, some, same⟩ := punctual.owned_settled was (by simp) p member pending
    exact ⟨b, q, some, same⟩
  · rw [reg] at some
    rw [promises]
    by_cases it : b = a
    · subst it
      rw [was] at some
      cases some
      exact .inr ⟨.inl after, s.clock, settled_mem (promised b r was)⟩
    · exact .inl (safe.mem_settle_other was it some (promised b q some))
  · rw [after] at running
    cases running
    rw [reg, was] at some
    cases some
    rw [promises] at member
    rcases of_mem_settle member with ⟨_, other⟩ | ⟨_, _, same⟩
    · rcases other with other | other <;> exact absurd rfl other
    · cases congrArg Promise.outcome same
  · rw [after] at idle
    exact idle.elim

/-- The time of a wait, if `timeout` fits. -/
theorem EPoll.limit_eq (fits : ceilMs timeout ≤ 2147483647) :
    EPoll.limit timeout = ceilMs timeout * millisecond := by
  have whole : (BitVec.ofNat 32 (ceilMs timeout)).toInt = (ceilMs timeout : ℤ) := by
    rw [BitVec.toInt_ofNat', Int.bmod_eq_of_le] <;> omega
  have positive : (max 0 (ceilMs timeout : ℤ)).toNat = ceilMs timeout := by omega
  unfold EPoll.limit EPoll.ms
  dsimp only
  rw [whole, positive]

theorem timely_sleep_iff (fits : ceilMs timeout ≤ 2147483647) {arrival : Option ℕ} {bound : ℕ} :
    s.clock + EPoll.elapsed timeout arrival < bound ↔
      (∃ time ∈ arrival, s.clock + time < bound) ∨
        s.clock + ceilMs timeout * millisecond < bound := by
  unfold EPoll.elapsed
  rw [EPoll.limit_eq fits]
  cases arrival with
  | none => simp
  | some time =>
      simp only [Option.mem_def, Option.some.injEq, exists_eq_left']
      omega

/-- What `epoll_wait` does, as two steps of the untimed loop. -/
theorem sleep_spec {arrival : Option ℕ} {batch : List (Interest × Events)}
    (safe : Safe timeout s) (slept : s.sleep timeout arrival batch = some t) :
    Safe timeout t ∧ t.reg = s.reg ∧ t.promises = s.promises ∧ t.epoll = s.epoll ∧
      t.clock = s.clock + EPoll.elapsed timeout arrival ∧
      (∃ since, s.phase = .polling since) ∧ ∃ todo, t.phase = .dispatching todo := by
  unfold State.sleep at slept
  split at slept
  · obtain ⟨u, ticked, returned⟩ := Option.bind_eq_some_iff.mp slept
    obtain ⟨safe', first⟩ := step_spec safe (show Allowed s (.tick _) from trivial) ticked
    obtain ⟨safe'', second⟩ := step_spec safe' (show Allowed u (.ready _) from trivial) returned
    cases first with
    | ticks reg epoll promises phase reading clock =>
        cases second with
        | @returns _ since todo still before after =>
            exact ⟨safe'', still.reg.trans reg, still.promises.trans promises,
              still.epoll.trans epoll, still.clock.trans clock, ⟨since, phase ▸ before⟩, todo, after⟩
        | goesOn own => exact own.elim nofun nofun
        | mutates clock calls phase effect =>
            cases effect with
            | quiet counts => cases counts
        | stops still after misused => exact misused.elim
    | goesOn own => exact own.elim nofun nofun
    | mutates clock calls phase effect =>
        cases effect with
        | quiet counts => cases counts
    | stops still after misused => exact misused.elim
  · cases slept

theorem timedStep_act {action : Action} (moved : timedStep timeout s (.act action) = some t) :
    step timeout s action = some t ∧ (∀ elapsed, action ≠ .tick elapsed) ∧
      ∀ batch, action ≠ .ready batch := by
  cases action with
  | tick | ready => cases moved
  | wait | next | back | construct | add | remove | modify | refresh | incRef | decRef | close =>
      exact ⟨moved, nofun, nofun⟩

/-- No wait outlasts the first deadline by a millisecond. -/
theorem punctual_sleep {arrival : Option ℕ} {batch : List (Interest × Events)}
    (fits : ceilMs timeout ≤ 2147483647) (safe : Safe timeout s) (punctual : Punctual s)
    (timely : Timely timeout s (.sleep arrival batch))
    (slept : s.sleep timeout arrival batch = some t) : Punctual t := by
  obtain ⟨_, reg, promises, _, clock, ⟨since, before⟩, todo, after⟩ := sleep_spec safe slept
  obtain ⟨_, inv, _⟩ := safe.inv
  refine ⟨?_, ?_, fun a r some => ?_, fun a r running => ?_, fun idle => ?_⟩
  · rw [promises, clock]
    intro p member
    have kept := punctual.kept p member
    cases outcome : p.outcome with
    | withdrawn time | fired time => simpa [Promise.Kept, outcome] using kept
    | pending =>
        obtain ⟨a, r, was, rfl⟩ := punctual.owned p member outcome
        cases head : s.expire.head with
        | none =>
            rw [inv.no_head head a] at was
            cases was
        | some b =>
            obtain ⟨q, first, least⟩ := inv.head head
            have soon := (timely_sleep_iff fits).mpr (timely b q head first)
            exact Nat.lt_of_lt_of_le soon (Nat.add_le_add_right (least a r was) _)
  · rw [promises, reg]
    exact punctual.owned
  · rw [reg] at some
    rw [promises]
    refine (punctual.made a r some).imp id fun excused => ?_
    exact absurd excused.1 (Phase.not_excuses (.inl (by rw [before]; trivial)))
  · rw [after] at running
    cases running
  · rw [after] at idle
    exact idle.elim

theorem punctual_act {action : Action} (positive : 0 < timeout) (safe : Safe timeout s)
    (punctual : Punctual s) (timely : Timely timeout s (.act action))
    (moved : Stepped timeout s t action) (noTick : ∀ elapsed, action ≠ .tick elapsed)
    (noReturn : ∀ batch, action ≠ .ready batch) : Punctual t := by
  cases moved with
  | @ticks elapsed => exact absurd rfl (noTick elapsed)
  | @returns batch => exact absurd rfl (noReturn batch)
  | waits reg interest total promises clock reading before after =>
      have idle : s.phase.Idle := by
        rw [before]
        trivial
      refine punctual.still reg promises clock
        (fun _ excused => absurd excused (Phase.not_excuses (.inl idle))) ?_
        fun _ => punctual.idle idle
      · rw [after]
        rintro a ⟨⟩
  | goesOn own still before after =>
      refine punctual.still still.reg still.promises still.clock
        (fun _ excused => absurd excused (Phase.not_excuses (.inr before))) ?_ ?_
      · intro a running
        rw [running] at after
        exact after.elim
      · intro idle
        cases phase : t.phase <;> rw [phase] at after idle
        all_goals first | exact after.elim | exact idle.elim
  | rests still before after due =>
      have inside : s.phase.Inside := by
        rw [before]
        trivial
      refine punctual.still still.reg still.promises still.clock
        (fun _ excused => absurd excused (Phase.not_excuses (.inr inside))) ?_
        fun _ a r some => (due a r some).2
      · rw [after]
        rintro a ⟨⟩
  | expires reg epoll clock before after head due promises =>
      exact punctual.expired safe head due reg clock before after promises
  | @leaves a still before after gone =>
      refine punctual.still still.reg still.promises still.clock ?_ ?_ ?_
      · rw [before]
        rintro b (⟨⟨⟩⟩ | ⟨_, ⟨⟩⟩)
        exact .inr gone
      · rw [after]
        rintro b ⟨⟩
      · rw [after]
        exact False.elim
  | @timedOut a r clock before after refreshed =>
      refine punctual.refreshed positive safe refreshed clock
        (punctual.later a r before refreshed.was) ?_ ?_ ?_
      · rw [before]
        rintro b other (⟨⟨⟩⟩ | ⟨_, ⟨⟩⟩)
        exact absurd rfl other
      · rw [after]
        rintro b ⟨⟩
      · rw [after]
        exact id
  | mutates clock calls phase effect =>
      have busy : ¬ t.phase.Idle := by
        rw [phase]
        intro idle
        cases where_ : s.phase <;> rw [where_] at idle calls
        all_goals first | exact idle.elim | cases calls
      have same : ∀ a, t.phase = .timingOut a → s.phase = .timingOut a := by
        rw [phase]
        exact fun _ => id
      have before : ∀ a r, s.reg a = some r → s.clock < r.deadline ∨ s.phase = .timingOut a →
          ⟨r.serial, r.deadline, .pending⟩ ∈ s.promises → s.clock < r.deadline := by
        rintro a r was (early | running) pending
        · exact early
        · exact punctual.later a r running was pending
      have still : t.reg = s.reg → t.promises = s.promises → Punctual t := by
        intro reg promises
        refine punctual.still reg promises clock ?_ same fun idle => absurd idle busy
        rw [phase]
        exact fun _ => .inl
      cases effect with
      | quiet _ reg epoll promises => exact still reg promises
      | modifies was reg epoll promises => exact still reg promises
      | closes reg epoll promises => exact still reg promises
      | adds new live reg epoll promises =>
          exact punctual.added positive safe new live reg promises clock phase busy
      | @removes a r was reg epoll promises =>
          exact punctual.removed safe was reg promises clock phase (before a r was (timely r was))
            busy
      | @refreshes a r refreshed =>
          refine punctual.refreshed positive safe refreshed clock
            (before a r refreshed.was (timely r refreshed.was)) ?_ same busy
          rw [phase]
          exact fun _ _ => id
  | stops still after misused =>
      refine punctual.still still.reg still.promises still.clock ?_ ?_ ?_
      · exact fun _ _ => .inl (.inr ⟨_, after⟩)
      · rw [after]
        rintro a ⟨⟩
      · rw [after]
        exact False.elim

theorem timed_safe {action : TimedAction} (safe : Safe timeout s) (allowed : action.Allowed s)
    (moved : timedStep timeout s action = some t) : Safe timeout t := by
  cases action with
  | sleep arrival batch => exact (sleep_spec safe moved).1
  | act action => exact (step_spec safe allowed (timedStep_act moved).1).1

theorem punctual_step {action : TimedAction} (positive : 0 < timeout)
    (fits : ceilMs timeout ≤ 2147483647) (safe : Safe timeout s) (punctual : Punctual s)
    (allowed : action.Allowed s) (timely : Timely timeout s action)
    (moved : timedStep timeout s action = some t) : Punctual t := by
  cases action with
  | sleep arrival batch => exact punctual_sleep fits safe punctual timely moved
  | act action =>
      obtain ⟨stepped, noTick, noReturn⟩ := timedStep_act moved
      exact punctual_act positive safe punctual timely (step_spec safe allowed stepped).2 noTick
        noReturn

/-- A step that is not timely breaks a promise. -/
theorem timely_of_kept {action : TimedAction} (fits : ceilMs timeout ≤ 2147483647)
    (safe : Safe timeout s) (punctual : Punctual s) (allowed : action.Allowed s)
    (moved : timedStep timeout s action = some t) (running : ∀ why, t.phase ≠ .stopped why)
    (kept : ∀ p ∈ t.promises, p.Kept t.clock) : Timely timeout s action := by
  -- a handler that is refreshed or removed
  have early : ∀ a r, s.phase.calls = true → s.reg a = some r →
      (∀ deadline, ⟨r.serial, deadline, .pending⟩ ∈ s.promises →
        ⟨r.serial, deadline, .withdrawn s.clock⟩ ∈ t.promises) →
      s.clock < r.deadline ∨ s.phase = .timingOut a := by
    intro a r calls was settled
    rcases punctual.made a r was with pending | ⟨excused | ⟨why, stopped⟩, _⟩
    · exact .inl (kept _ (settled _ pending))
    · exact .inr excused
    · rw [stopped] at calls
      cases calls
  cases action with
  | sleep arrival batch =>
      intro a r head was
      obtain ⟨_, _, promises, _, clock, ⟨since, before⟩, _⟩ := sleep_spec safe moved
      rw [promises, clock] at kept
      refine (timely_sleep_iff fits).mp ?_
      rcases punctual.made a r was with pending | ⟨excused, _⟩
      · exact kept _ pending
      · exact absurd excused (Phase.not_excuses (.inl (by rw [before]; trivial)))
  | act action =>
      obtain ⟨stepped, _, _⟩ := timedStep_act moved
      have stepped' := (step_spec safe allowed stepped).2
      cases action with
      | remove a =>
          intro r was
          cases stepped' with
          | goesOn own => exact own.elim nofun nofun
          | stops still after => exact absurd after (running _)
          | mutates clock calls phase effect =>
              cases effect with
              | quiet counts => cases counts
              | removes was' reg epoll promises =>
                  rw [was] at was'
                  cases was'
                  refine early a r calls was fun deadline pending => ?_
                  rw [promises]
                  exact settled_mem pending
      | refresh a =>
          intro r was
          cases stepped' with
          | goesOn own => exact own.elim nofun nofun
          | stops still after => exact absurd after (running _)
          | mutates clock calls phase effect =>
              cases effect with
              | quiet counts => cases counts
              | refreshes refreshed =>
                  have was' := refreshed.was
                  rw [was] at was'
                  cases was'
                  refine early a r calls was fun deadline pending => ?_
                  rw [refreshed.promises]
                  exact List.mem_append_left _ (settled_mem pending)
      | tick | wait | ready | next | back | construct | add | modify | incRef | decRef | close =>
          trivial

/-- Whether a step keeps the promises is decided before it. -/
theorem kept_iff_timely {action : TimedAction} (positive : 0 < timeout)
    (fits : ceilMs timeout ≤ 2147483647) (safe : Safe timeout s) (punctual : Punctual s)
    (allowed : action.Allowed s) (moved : timedStep timeout s action = some t)
    (running : ∀ why, t.phase ≠ .stopped why) :
    (∀ p ∈ t.promises, p.Kept t.clock) ↔ Timely timeout s action :=
  ⟨timely_of_kept fits safe punctual allowed moved running,
    fun timely => (punctual_step positive fits safe punctual allowed timely moved).kept⟩

theorem init_punctual {pipe : Fd} (init : Init pipe s) : Punctual s := by
  obtain ⟨clock, rfl⟩ := init
  refine ⟨fun p member => ?_, fun p member => ?_, ?_, ?_, ?_⟩
  · cases member
  · cases member
  · rintro a r ⟨⟩
  · rintro a r ⟨⟩
  · rintro _ a r ⟨⟩

theorem punctual_of_timed {pipe : Fd} (positive : 0 < timeout) (fits : ceilMs timeout ≤ 2147483647)
    (reach : Timed timeout pipe (fun s a => a.Allowed s ∧ Timely timeout s a) s) :
    Safe timeout s ∧ Punctual s := by
  refine Runs.Reachable.invariant (I := fun s => Safe timeout s ∧ Punctual s) ?_ ?_ reach
  · exact fun _ init => ⟨init_safe init, init_punctual init⟩
  · rintro s t ⟨safe, punctual⟩ ⟨action, ⟨allowed, timely⟩, moved⟩
    exact ⟨timed_safe safe allowed moved,
      punctual_step positive fits safe punctual allowed timely moved⟩

section Rests

/-- When the handlers just return, `Loop` comes back to `epoll_wait` while no time passes, and
then no handler is due. -/
def Rests (timeout : ℕ) (s : State) : Prop :=
  ∃ actions t, (∀ a ∈ actions, a = Action.next ∨ a = Action.back) ∧
    Runs.replay (step timeout) s actions = some t ∧ t.phase = .waiting ∧ t.clock = s.clock ∧
      ∀ a r, t.reg a = some r → t.clock < r.deadline

theorem Rests.step {action : Action} (own : action = .next ∨ action = .back)
    (moved : step timeout s action = some t) (clock : t.clock = s.clock) (rests : Rests timeout t) :
    Rests timeout s := by
  obtain ⟨actions, u, owned, ran, waiting, time, due⟩ := rests
  refine ⟨action :: actions, u, ?_, ?_, waiting, time.trans clock, due⟩
  · rintro a (_ | ⟨_, member⟩)
    · exact own
    · exact owned a member
  · rw [Runs.replay, moved]
    exact ran

theorem timing_back {a : Addr} (positive : 0 < timeout) (safe : Safe timeout s)
    (timing : s.phase = .timingOut a) :
    ∃ t, step timeout s .back = some t ∧ Safe timeout t ∧ t.phase = .expiring ∧
      t.clock = s.clock ∧ ∀ b q, t.reg b = some q → q.deadline ≤ t.clock →
        b ≠ a ∧ s.reg b = some q := by
  obtain ⟨t, moved⟩ : ∃ t, step timeout s .back = some t := ⟨_, by simp only [step, timing]; rfl⟩
  obtain ⟨safe', stepped⟩ := step_spec safe (show Allowed s .back from trivial) moved
  refine ⟨t, moved, safe', ?_⟩
  cases stepped with
  | goesOn _ _ before =>
      rw [timing] at before
      exact before.elim
  | mutates _ _ _ effect =>
      cases effect with
      | quiet counts => cases counts
  | stops _ _ misused => exact misused.elim
  | leaves still before after gone =>
      refine ⟨after, still.clock, fun b q some _ => ?_⟩
      rw [timing] at before
      cases before
      rw [still.reg] at some
      refine ⟨?_, some⟩
      rintro rfl
      rw [gone] at some
      cases some
  | timedOut clock before after refreshed =>
      refine ⟨after, clock, fun b q some due => ?_⟩
      rw [timing] at before
      cases before
      rw [refreshed.reg] at some
      by_cases it : b = a
      · subst it
        rw [Function.update_self] at some
        cases some
        rw [clock] at due
        exact absurd (Nat.lt_add_of_pos_right positive) (Nat.not_lt.mpr due)
      · rw [Function.update_of_ne it] at some
        exact ⟨it, some⟩

/-- In each round of the pass a handler that is due is called, and then it is not due. -/
theorem rests_of_expiring (positive : 0 < timeout) {items : List Addr} (safe : Safe timeout s)
    (expiring : s.phase = .expiring)
    (covers : ∀ a r, s.reg a = some r → r.deadline ≤ s.clock → a ∈ items) : Rests timeout s := by
  induction rounds : items.length using Nat.strongRecOn generalizing items s with
  | _ n ih =>
      obtain ⟨t, moved⟩ : ∃ t, step timeout s .next = some t :=
        ⟨_, by simp only [step, expiring]; rfl⟩
      obtain ⟨safe', stepped⟩ := step_spec safe (show Allowed s .next from trivial) moved
      cases stepped with
      | goesOn _ _ _ _ less =>
          rw [expiring] at less
          exact absurd less (Nat.not_lt_zero _)
      | mutates _ calls =>
          rw [expiring] at calls
          cases calls
      | stops _ _ misused => exact misused.elim
      | rests still before after due =>
          refine ⟨[.next], t, by simp, by simp [Runs.replay, moved], after, still.clock, ?_⟩
          intro a r some
          rw [still.reg] at some
          rw [still.clock]
          exact (due a r some).2
      | @expires a r reg epoll clock before after head due =>
          have inside : a ∈ items := covers a r head due
          obtain ⟨u, moved', safe'', expiring', clock', left⟩ := timing_back positive safe' after
          refine .step (.inl rfl) moved clock (.step (.inr rfl) moved' clock' ?_)
          refine ih (items.erase a).length ?_ safe'' expiring' ?_ rfl
          · rw [← rounds, List.length_erase_of_mem inside]
            exact Nat.sub_lt (List.length_pos_of_mem inside) Nat.one_pos
          · intro b q some soon
            obtain ⟨other, some⟩ := left b q some soon
            rw [reg] at some
            rw [clock', clock] at soon
            exact (List.mem_erase_of_ne other).mpr (covers b q some soon)

theorem rests_of_inside (positive : 0 < timeout) (safe : Safe timeout s)
    (inside : s.phase.Inside) : Rests timeout s := by
  induction left : s.phase.work using Nat.strongRecOn generalizing s with
  | _ n ih =>
      have rest : ∀ action t, (action = .next ∨ action = .back) →
          step timeout s action = some t → Still s t → t.phase.Inside →
          t.phase.work < s.phase.work → Rests timeout s := by
        intro action t own moved still inside less
        refine .step own moved still.clock (ih _ (left ▸ less) ?_ inside rfl)
        rcases own with rfl | rfl
        · exact (step_spec safe (show Allowed s .next from trivial) moved).1
        · exact (step_spec safe (show Allowed s .back from trivial) moved).1
      cases phase : s.phase with
      | dispatching todo =>
          obtain ⟨t, moved⟩ : ∃ t, step timeout s .next = some t := by
            cases todo <;> exact ⟨_, by simp only [step, phase]; rfl⟩
          cases (step_spec safe (show Allowed s .next from trivial) moved).2 with
          | goesOn own still _ after less => exact rest _ t own moved still after less
          | mutates _ calls =>
              rw [phase] at calls
              cases calls
          | stops _ _ misused => exact misused.elim
          | rests _ before | expires _ _ _ before =>
              rw [phase] at before
              cases before
      | handling a todo | running todo =>
          obtain ⟨t, moved⟩ : ∃ t, step timeout s .back = some t :=
            ⟨_, by simp only [step, phase]; rfl⟩
          cases (step_spec safe (show Allowed s .back from trivial) moved).2 with
          | goesOn own still _ after less => exact rest _ t own moved still after less
          | mutates _ _ _ effect =>
              cases effect with
              | quiet counts => cases counts
          | stops _ _ misused => exact misused.elim
          | leaves _ before | timedOut _ before =>
              rw [phase] at before
              cases before
      | expiring =>
          obtain ⟨_, inv, _⟩ := safe.inv
          obtain ⟨items, listed⟩ := inv.listed
          exact rests_of_expiring positive safe phase fun a r some _ =>
            (listed.registered a).mpr ⟨r, some⟩
      | waiting | polling | timingOut | stopped =>
          rw [phase] at inside
          exact inside.elim

/-- Between two waits nothing keeps `Loop` from the next one. -/
theorem comes_to_rest (positive : 0 < timeout) (safe : Safe timeout s)
    (running : s.phase.calls = true ∨ s.phase.Inside) : Rests timeout s := by
  by_cases inside : s.phase.Inside
  · exact rests_of_inside positive safe inside
  · have calls := running.resolve_right inside
    cases phase : s.phase with
    | timingOut a =>
        obtain ⟨t, moved, safe', expiring, clock, _⟩ := timing_back positive safe phase
        exact .step (.inr rfl) moved clock
          (rests_of_inside positive safe' (by rw [expiring]; trivial))
    | handling | running | dispatching | expiring =>
        rw [phase] at inside
        exact absurd trivial inside
    | waiting | polling | stopped =>
        rw [phase] at calls
        cases calls

end Rests

/-- Deadlines are met in every timed run whose waits end in time: `OnTimeout` is called less than
a millisecond after the deadline of a handler that is neither refreshed nor removed before. -/
theorem deadlines_met {pipe : Fd} (positive : 0 < timeout) (fits : ceilMs timeout ≤ 2147483647)
    (reach : Timed timeout pipe (fun s a => a.Allowed s ∧ Timely timeout s a) s) :
    (∀ p ∈ s.promises, p.Kept s.clock) ∧
    (∀ a h, s.heap a = some h → h.event_loop = true → ∃ p ∈ s.promises,
      p.serial = h.serial ∧ p.deadline = h.deadline ∧ ∀ time, p.outcome ≠ .withdrawn time) ∧
    (s.phase.Idle → ∀ a h, s.heap a = some h → h.event_loop = true → s.clock < h.deadline) ∧
    (s.phase.calls = true ∨ s.phase.Inside → Rests timeout s) := by
  obtain ⟨safe, punctual⟩ := punctual_of_timed positive fits reach
  refine ⟨punctual.kept, fun a h found on => ?_, fun idle a h found on => ?_,
    comes_to_rest positive safe⟩
  · rcases punctual.made a _ (State.reg_of_registered found on) with pending | ⟨_, time, fired⟩
    · exact ⟨_, pending, rfl, rfl, nofun⟩
    · exact ⟨_, fired, rfl, rfl, nofun⟩
  · exact punctual.idle idle a _ (State.reg_of_registered found on)

/-- What the kernel reports when a function was scheduled. -/
def scheduled : Interest × Events := (⟨0, EPOLLIN, none, none⟩, EPOLLIN)

/-- A handler is registered at time zero and is left alone. It is called in time. -/
def undisturbed : List TimedAction :=
  [.act (.wait 4), .sleep (some 0) [scheduled], .act .next, .act (.construct 1 5),
    .act (.add 1 EPOLLIN), .act .back, .act .next, .act .next,
    .act (.wait 4), .sleep none [], .act .next, .act .next, .act .back, .act .next]

def afterUndisturbed : State :=
  (Runs.replayIf (timedStep 2000000) (fun s a => a.Allowed s ∧ Timely 2000000 s a)
    { clock := 0, reading := 0, epoll := { interest := [⟨0, EPOLLIN, none, none⟩] } }
    undisturbed).get (by decide +kernel)

theorem afterUndisturbed_reachable :
    Timed 2000000 0 (fun s a => a.Allowed s ∧ Timely 2000000 s a) afterUndisturbed :=
  Runs.replayIf_reachable undisturbed (.start ⟨0, rfl⟩) (Option.some_get _).symm

theorem deadlines_met_afterUndisturbed :
    (⟨0, 2000000, .fired 2000000⟩ : Promise) ∈ afterUndisturbed.promises ∧
      ∀ p ∈ afterUndisturbed.promises, p.Kept afterUndisturbed.clock :=
  ⟨by decide +kernel, (deadlines_met (by decide) (by decide) afterUndisturbed_reachable).1⟩

/-- Another function is scheduled just before the deadline. `Loop` then waits for the whole
timeout once more, and the handler is called when almost twice the timeout is over. -/
def disturbed : List TimedAction :=
  [.act (.wait 4), .sleep (some 0) [scheduled], .act .next, .act (.construct 1 5),
    .act (.add 1 EPOLLIN), .act .back, .act .next, .act .next,
    .act (.wait 4), .sleep (some 1999999) [scheduled], .act .next, .act .back, .act .next,
    .act .next, .act (.wait 4), .sleep none [], .act .next, .act .next]

def afterDisturbed : State :=
  (Runs.replayIf (timedStep 2000000) (fun s a => a.Allowed s)
    { clock := 0, reading := 0, epoll := { interest := [⟨0, EPOLLIN, none, none⟩] } }
    disturbed).get (by decide +kernel)

theorem deadline_missed :
    0 < 2000000 ∧ ceilMs 2000000 ≤ 2147483647 ∧ Timed 2000000 0 (fun s a => a.Allowed s) afterDisturbed ∧
      (⟨0, 2000000, .fired 3999999⟩ : Promise) ∈ afterDisturbed.promises ∧
      ¬ ∀ p ∈ afterDisturbed.promises, p.Kept afterDisturbed.clock := by
  have fired : (⟨0, 2000000, .fired 3999999⟩ : Promise) ∈ afterDisturbed.promises := by decide +kernel
  refine ⟨by decide, by decide, ?_, fired, fun kept => ?_⟩
  · exact Runs.replayIf_reachable disturbed (.start ⟨0, rfl⟩) (Option.some_get _).symm
  · have late := (kept _ fired).2
    exact absurd late (by decide)

end Hcproxy.Loop
