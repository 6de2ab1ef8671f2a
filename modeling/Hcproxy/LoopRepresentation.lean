import Hcproxy.LoopDispatch

set_option autoImplicit false

namespace Hcproxy.Loop

/-- Fds enter the epoll set once and are closed after they have left it. -/
def Proper (s : State) (action : Action) : Prop :=
  Allowed s action ∧ match action with
    | .add a _ => ∀ h, s.heap a = some h → h.fd ∉ s.epoll.fds
    | .close fd => fd ∉ s.epoll.fds
    | _ => True

instance (s : State) (action : Action) : Decidable (Proper s action) :=
  match action with
  | .add a events => decidable_of_iff
      (Allowed s (.add a events) ∧ (s.heap a).all (fun h => decide (h.fd ∉ s.epoll.fds)) = true) (by
        simp [Proper, Option.all_eq_true])
  | .close fd => inferInstanceAs (Decidable (Allowed s (.close fd) ∧ fd ∉ s.epoll.fds))
  | .tick _ | .wait _ | .ready _ | .next | .back | .construct _ _ | .remove _ | .modify _ _
  | .refresh _ | .incRef _ | .decRef _ => inferInstanceAs (Decidable (_ ∧ True))

/-- The epoll set is the pipe and the fds of the registered handlers. -/
structure Exact (pipe : Fd) (reg : Addr → Option Reg) (p : EPoll) : Prop where
  nodup : p.fds.Nodup
  count : p.total_events = p.interest.length
  piped : ∃ e ∈ p.interest, e.fd = pipe ∧ e.data = none
  handlers : ∀ a r, reg a = some r → ∃ e ∈ p.interest, e.fd = r.fd ∧ e.data = some a
  only : ∀ e ∈ p.interest, e.data = none → e.fd = pipe

variable {timeout : ℕ} {pipe : Fd} {reg : Addr → Option Reg} {p : EPoll} {s t : State}

section Exact

theorem same_entry (nodup : p.fds.Nodup) {e f : Interest} (one : e ∈ p.interest)
    (other : f ∈ p.interest) (fd : e.fd = f.fd) : e = f :=
  List.inj_on_of_nodup_map nodup one other fd

theorem Exact.fd_ne (exact_ : Exact pipe reg p) {a : Addr} {r : Reg} (was : reg a = some r) :
    r.fd ≠ pipe ∧ ∀ b q, b ≠ a → reg b = some q → q.fd ≠ r.fd := by
  obtain ⟨e, inside, fd, data⟩ := exact_.handlers a r was
  constructor
  · intro same
    obtain ⟨f, inside', fd', data'⟩ := exact_.piped
    have equal := same_entry exact_.nodup inside inside' (by rw [fd, fd', same])
    rw [equal, data'] at data
    cases data
  · intro b q other another same
    obtain ⟨f, inside', fd', data'⟩ := exact_.handlers b q another
    have equal := same_entry exact_.nodup inside inside' (by rw [fd, fd', same])
    rw [equal, data'] at data
    exact other (Option.some.inj data)

theorem Exact.add (exact_ : Exact pipe reg p) {a : Addr} {r : Reg} {e : Interest} {q : EPoll}
    (fd : e.fd = r.fd) (data : e.data = some a) (entered : p.add e = some q) :
    Exact pipe (Function.update reg a (some r)) q := by
  obtain ⟨absent, rfl⟩ := EPoll.add_eq_some.mp entered
  constructor
  · change ((p.interest ++ [e]).map Interest.fd).Nodup
    rw [List.map_append, List.nodup_append_comm]
    exact List.nodup_cons.mpr ⟨absent, exact_.nodup⟩
  · change p.total_events + 1 = (p.interest ++ [e]).length
    rw [exact_.count, List.length_append]
    rfl
  · obtain ⟨f, inside, known⟩ := exact_.piped
    exact ⟨f, List.mem_append_left _ inside, known⟩
  · intro b q some
    by_cases it : b = a
    · subst it
      rw [Function.update_self] at some
      cases some
      exact ⟨e, List.mem_append_right _ (List.mem_singleton.mpr rfl), fd, data⟩
    · rw [Function.update_of_ne it] at some
      obtain ⟨f, inside, known⟩ := exact_.handlers b q some
      exact ⟨f, List.mem_append_left _ inside, known⟩
  · intro f member none
    rcases List.mem_append.mp member with old | new
    · exact exact_.only f old none
    · rw [List.mem_singleton.mp new, data] at none
      cases none

theorem Exact.remove (exact_ : Exact pipe reg p) {a : Addr} {r : Reg} {q : EPoll}
    (was : reg a = some r) (left : p.remove r.fd = some q) :
    Exact pipe (Function.update reg a none) q := by
  obtain ⟨present, rfl⟩ := EPoll.remove_eq_some.mp left
  obtain ⟨notPipe, apart⟩ := exact_.fd_ne was
  have fds : (p.interest.filter (·.fd ≠ r.fd)).map Interest.fd = p.fds.erase r.fd := by
    rw [exact_.nodup.erase_eq_filter, EPoll.fds, List.filter_map]
    congr 1
    refine List.filter_congr fun e _ => ?_
    simp only [Function.comp_apply, bne, ne_eq, decide_not]
    rfl
  constructor
  · change ((p.interest.filter (·.fd ≠ r.fd)).map Interest.fd).Nodup
    rw [fds]
    exact exact_.nodup.erase _
  · change p.total_events - 1 = (p.interest.filter (·.fd ≠ r.fd)).length
    have size := congrArg List.length fds
    rw [List.length_map, List.length_erase_of_mem present] at size
    rw [size, exact_.count, EPoll.fds, List.length_map]
  · obtain ⟨e, inside, fd, data⟩ := exact_.piped
    exact ⟨e, List.mem_filter.mpr ⟨inside, by simpa [fd] using Ne.symm notPipe⟩, fd, data⟩
  · intro b q some
    by_cases it : b = a
    · subst it
      rw [Function.update_self] at some
      cases some
    · rw [Function.update_of_ne it] at some
      obtain ⟨e, inside, fd, data⟩ := exact_.handlers b q some
      exact ⟨e, List.mem_filter.mpr ⟨inside, by simpa [fd] using apart b q it some⟩, fd, data⟩
  · exact fun e member none => exact_.only e (List.mem_filter.mp member).1 none

theorem Exact.modify (exact_ : Exact pipe reg p) {a : Addr} {r : Reg} {f : Interest} {q : EPoll}
    (was : reg a = some r) (fd : f.fd = r.fd) (data : f.data = some a)
    (changed : p.modify f = some q) : Exact pipe reg q := by
  obtain ⟨present, rfl⟩ := EPoll.modify_eq_some.mp changed
  obtain ⟨notPipe, apart⟩ := exact_.fd_ne was
  have fds : (p.interest.map fun e => if e.fd = f.fd then f else e).map Interest.fd = p.fds := by
    rw [List.map_map]
    refine List.map_congr_left fun e _ => ?_
    by_cases same : e.fd = f.fd
    · simp [same]
    · simp [same]
  constructor
  · change ((p.interest.map fun e => if e.fd = f.fd then f else e).map Interest.fd).Nodup
    rw [fds]
    exact exact_.nodup
  · change p.total_events = (p.interest.map fun e => if e.fd = f.fd then f else e).length
    rw [List.length_map]
    exact exact_.count
  · obtain ⟨e, inside, known⟩ := exact_.piped
    refine ⟨e, List.mem_map.mpr ⟨e, inside, if_neg ?_⟩, known⟩
    rw [known.1, fd]
    exact Ne.symm notPipe
  · intro b q some
    by_cases it : b = a
    · subst it
      rw [was] at some
      cases some
      obtain ⟨e, inside, known, _⟩ := exact_.handlers b r was
      exact ⟨f, List.mem_map.mpr ⟨e, inside, if_pos (by rw [known, fd])⟩, fd, data⟩
    · obtain ⟨e, inside, known⟩ := exact_.handlers b q some
      refine ⟨e, List.mem_map.mpr ⟨e, inside, if_neg ?_⟩, known⟩
      rw [known.1, fd]
      exact apart b q it some
  · intro e member none
    obtain ⟨old, inside, written⟩ := List.mem_map.mp member
    split at written
    · subst written
      rw [data] at none
      cases none
    · subst written
      exact exact_.only old inside none

theorem Exact.congr {reg' : Addr → Option Reg} {q : EPoll} (exact_ : Exact pipe reg p)
    (same : ∀ a r, reg' a = some r → ∃ r', reg a = some r' ∧ r'.fd = r.fd)
    (interest : q.interest = p.interest) (total : q.total_events = p.total_events) :
    Exact pipe reg' q := by
  refine ⟨?_, ?_, ?_, ?_, ?_⟩
  · rw [EPoll.fds, interest]
    exact exact_.nodup
  · rw [interest, total]
    exact exact_.count
  · rw [interest]
    exact exact_.piped
  · intro a r some
    obtain ⟨r', was, fd⟩ := same a r some
    rw [interest, ← fd]
    exact exact_.handlers a r' was
  · rw [interest]
    exact exact_.only

theorem Exact.refreshed {a : Addr} {r : Reg} (exact_ : Exact pipe s.reg s.epoll)
    (refreshed : Refreshed timeout s t a r) : Exact pipe t.reg t.epoll := by
  refine exact_.congr ?_ (by rw [refreshed.epoll]) (by rw [refreshed.epoll])
  intro b q some
  rw [refreshed.reg] at some
  by_cases it : b = a
  · subst it
    rw [Function.update_self] at some
    cases some
    exact ⟨r, refreshed.was, rfl⟩
  · rw [Function.update_of_ne it] at some
    exact ⟨q, some, rfl⟩

end Exact

/-- Operations with proper fds keep the epoll set in step. -/
theorem Exact.effect {action : Action} (exact_ : Exact pipe s.reg s.epoll)
    (proper : Proper s action) (effect : Effect timeout s t action) :
    Exact pipe t.reg t.epoll := by
  cases effect with
  | quiet _ reg epoll => rwa [reg, epoll]
  | adds new live reg epoll =>
      rw [reg]
      exact exact_.add rfl rfl epoll
  | removes was reg epoll =>
      rw [reg]
      exact exact_.remove was epoll
  | modifies was reg epoll =>
      rw [reg]
      exact exact_.modify was rfl rfl epoll
  | refreshes refreshed => exact exact_.refreshed refreshed
  | @closes fd reg epoll =>
      have same : s.epoll.interest.filter (·.fd ≠ fd) = s.epoll.interest := by
        refine List.filter_eq_self.mpr fun e member => ?_
        have absent : fd ∉ s.epoll.fds := proper.2
        have other : e.fd ≠ fd := fun it => absent (List.mem_map.mpr ⟨e, member, it⟩)
        simpa using other
      rw [reg, epoll]
      exact exact_.congr (fun a r some => ⟨r, some, rfl⟩) same rfl

theorem Exact.not_misused {action : Action} (exact_ : Exact pipe s.reg s.epoll)
    (proper : Proper s action) : ¬ Misused s action := by
  intro misused
  cases action with
  | add a events =>
      obtain ⟨h, found, present⟩ := misused
      exact proper.2 h found present
  | remove a | modify a =>
      obtain ⟨r, was, absent⟩ := misused
      obtain ⟨e, inside, fd, _⟩ := exact_.handlers a r was
      exact absent (List.mem_map.mpr ⟨e, inside, fd⟩)
  | tick | wait | ready | next | back | construct | refresh | incRef | decRef | close =>
      exact misused

/-- What the structures of `EventLoop` say about each other. -/
structure Kept (pipe : Fd) (s : State) : Prop where
  stops : ∀ why, s.phase ≠ .stopped why
  fds : Exact pipe s.reg s.epoll
  expired : s.phase.Idle → ∀ a r, s.reg a = some r → s.reading < r.deadline

theorem kept_step {action : Action} (safe : Safe timeout s) (kept : Kept pipe s)
    (proper : Proper s action) (stepped : step timeout s action = some t) : Kept pipe t := by
  obtain ⟨safe', moved⟩ := step_spec safe proper.1 stepped
  have exact_ := kept.fds
  have busy : ∀ {P : Prop}, t.phase.Inside → t.phase.Idle → P := by
    intro P inside idle
    cases phase : t.phase <;> rw [phase] at inside idle
    all_goals first | exact inside.elim | exact idle.elim
  have runs : t.phase.Inside → ∀ why, t.phase ≠ .stopped why := by
    intro inside why stopped
    rw [stopped] at inside
    exact inside
  cases moved with
  | ticks reg epoll promises phase reading clock =>
      refine ⟨by rw [phase]; exact kept.stops, by rwa [reg, epoll], ?_⟩
      rw [phase, reg, reading]
      exact kept.expired
  | waits reg interest total promises clock reading before after =>
      refine ⟨by simp [after], ?_, ?_⟩
      · rw [reg]
        exact exact_.congr (fun a r some => ⟨r, some, rfl⟩) interest total
      · intro _
        rw [reg, reading]
        exact kept.expired (by rw [before]; trivial)
  | returns still before after =>
      refine ⟨by simp [after], by rwa [still.reg, still.epoll], fun idle => ?_⟩
      rw [after] at idle
      exact idle.elim
  | goesOn _ still before after =>
      exact ⟨runs after, by rwa [still.reg, still.epoll], busy after⟩
  | rests still before after due =>
      refine ⟨by simp [after], by rwa [still.reg, still.epoll], fun _ a r some => ?_⟩
      rw [still.reg] at some
      obtain ⟨reading, later⟩ := due a r some
      rwa [reading]
  | expires reg epoll clock before after =>
      refine ⟨by simp [after], by rwa [reg, epoll], fun idle => ?_⟩
      rw [after] at idle
      exact idle.elim
  | leaves still before after =>
      refine ⟨by simp [after], by rwa [still.reg, still.epoll], fun idle => ?_⟩
      rw [after] at idle
      exact idle.elim
  | timedOut clock before after refreshed =>
      refine ⟨by simp [after], exact_.refreshed refreshed, fun idle => ?_⟩
      rw [after] at idle
      exact idle.elim
  | mutates clock calls phase effect =>
      refine ⟨by rw [phase]; exact kept.stops, exact_.effect proper effect, fun idle => ?_⟩
      rw [phase] at idle
      cases phase' : s.phase <;> rw [phase'] at idle calls
      all_goals first | exact idle.elim | cases calls
  | stops still after misused => exact absurd misused (exact_.not_misused proper)

theorem init_kept (init : Init pipe s) : Kept pipe s := by
  obtain ⟨clock, rfl⟩ := init
  refine ⟨by simp, ⟨by simp [EPoll.fds], rfl, ⟨_, List.mem_singleton.mpr rfl, rfl, rfl⟩, ?_, ?_⟩, ?_⟩
  · rintro a r ⟨⟩
  · intro e member _
    rw [List.mem_singleton.mp member]
  · rintro _ a r ⟨⟩

theorem kept_of_reachable (reach : Reachable timeout pipe Proper s) : Kept pipe s := by
  refine Runs.Reachable.strengthen (I := Safe timeout) (J := Kept pipe) ?_ (fun _ => init_kept) ?_
    reach
  · exact fun _ before => Reachable.safe (fun _ _ proper => proper.1) before
  · rintro s t safe kept ⟨a, proper, stepped⟩
    exact kept_step safe kept proper stepped

/-- The invariant of the representation: `expire_` links the registered handlers and nothing else,
in the order of their deadlines; the epoll set is the pipe and their fds, and `events_` has room
for all of them; and after a pass over `expire_` none of them is due. -/
theorem representation (reach : Reachable timeout pipe Proper s) :
    (∀ why, s.phase ≠ .stopped why) ∧
    (∃ items, Linked.Repr s.nodes s.expire items ∧
      (∀ a, a ∈ items ↔ ∃ h, s.heap a = some h ∧ h.event_loop = true) ∧
      (items.Pairwise fun a b => ∀ h g, s.heap a = some h → s.heap b = some g →
        h.deadline ≤ g.deadline) ∧
      s.epoll.total_events = items.length + 1) ∧
    s.epoll.fds.Nodup ∧ s.epoll.total_events = s.epoll.interest.length ∧
    (∀ fd data, (∃ e ∈ s.epoll.interest, e.fd = fd ∧ e.data = data) ↔
      fd = pipe ∧ data = none ∨
        ∃ a h, s.heap a = some h ∧ h.event_loop = true ∧ fd = h.fd ∧ data = some a) ∧
    (∀ since, s.phase = .polling since →
      s.epoll.total_events ≤ s.epoll.size ∧ 0 < s.epoll.size) ∧
    (s.phase.Idle → ∀ a h, s.heap a = some h → h.event_loop = true → s.reading < h.deadline) := by
  have safe : Safe timeout s := reach.safe fun _ _ proper => proper.1
  have kept : Kept pipe s := kept_of_reachable reach
  obtain ⟨temps, inv, _⟩ := safe.inv
  obtain ⟨items, listed⟩ := inv.listed
  have total := listed.total
  refine ⟨kept.stops, ⟨items, listed.repr, fun a => ?_, ?_, total⟩, kept.fds.nodup,
    kept.fds.count, fun fd data => ⟨?_, ?_⟩, fun since polling => ?_, fun idle a h found on => ?_⟩
  · rw [listed.registered a]
    constructor
    · rintro ⟨r, was⟩
      obtain ⟨h, found, on, _⟩ := State.reg_eq_some.mp was
      exact ⟨h, found, on⟩
    · rintro ⟨h, found, on⟩
      exact ⟨_, State.reg_of_registered found on⟩
  · refine listed.sorted.imp_of_mem fun {a b} memberA memberB below h g foundA foundB => ?_
    have on : ∀ c k, c ∈ items → s.heap c = some k → k.event_loop = true := by
      intro c k member found
      obtain ⟨r, was⟩ := (listed.registered c).mp member
      obtain ⟨k', found', on, _⟩ := State.reg_eq_some.mp was
      rw [found] at found'
      cases found'
      exact on
    exact below _ _ (State.reg_of_registered foundA (on a h memberA foundA))
      (State.reg_of_registered foundB (on b g memberB foundB))
  · rintro ⟨e, inside, rfl, rfl⟩
    cases data : e.data with
    | none => exact .inl ⟨kept.fds.only e inside data, rfl⟩
    | some a =>
        obtain ⟨r, was, fd, _⟩ := inv.entries e inside a data
        obtain ⟨h, found, on, rfl⟩ := State.reg_eq_some.mp was
        exact .inr ⟨a, h, found, on, fd.symm, rfl⟩
  · rintro (⟨rfl, rfl⟩ | ⟨a, h, found, on, rfl, rfl⟩)
    · exact kept.fds.piped
    · exact kept.fds.handlers a _ (State.reg_of_registered found on)
  · have room := safe.room since polling
    exact ⟨room, by omega⟩
  · exact kept.expired idle a _ (State.reg_of_registered found on)

/-- Three handlers are registered; the first is refreshed and the second times out and removes
the third. -/
def refreshed : List Action :=
  [.wait 4, .ready [(⟨0, EPOLLIN, none, none⟩, EPOLLIN)], .next,
    .construct 1 5, .add 1 EPOLLIN, .construct 2 6, .add 2 EPOLLIN, .construct 3 7, .add 3 EPOLLIN,
    .tick 60, .refresh 1, .back, .next, .next,
    .wait 4, .tick 40, .ready [], .next, .next, .remove 3, .close 7, .back, .next]

def afterPass : State :=
  (Runs.replayIf (step 100) Proper
    { clock := 0, reading := 0, epoll := { interest := [⟨0, EPOLLIN, none, none⟩] } }
    refreshed).get (by decide +kernel)

theorem afterPass_reachable : Reachable 100 0 Proper afterPass :=
  Runs.replayIf_reachable refreshed (.start ⟨0, rfl⟩) (Option.some_get _).symm

theorem representation_afterPass :
    (afterPass.expire = ⟨some 1, some 2⟩ ∧ afterPass.epoll.total_events = 3) ∧
      ∀ why, afterPass.phase ≠ .stopped why :=
  ⟨by decide +kernel, (representation afterPass_reachable).1⟩

end Hcproxy.Loop
