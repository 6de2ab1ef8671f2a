import Hcproxy.LoopInvariant

set_option autoImplicit false

namespace Hcproxy.Loop

/-- What a handler or a scheduled function may do. A handler that it names is in memory. -/
def Allowed (s : State) : Action → Prop
  | .add a _ => ∃ h, s.heap a = some h ∧ h.event_loop = false
  | .remove a | .modify a _ | .refresh a => ∃ r, s.reg a = some r
  | .incRef a => ∃ h, s.heap a = some h
  | .decRef a => ∃ h, s.heap a = some h ∧ 0 < h.held
  | _ => True

instance : ∀ (s : State) (a : Action), Decidable (Allowed s a)
  | s, .add a _ =>
    decidable_of_iff ((s.heap a).any (fun h => decide (h.event_loop = false)) = true) (by
      simp [Allowed, Option.any_eq_true])
  | s, .remove a | s, .modify a _ | s, .refresh a =>
    decidable_of_iff ((s.reg a).isSome = true) Option.isSome_iff_exists
  | s, .incRef a => decidable_of_iff ((s.heap a).isSome = true) Option.isSome_iff_exists
  | s, .decRef a =>
    decidable_of_iff ((s.heap a).any (fun h => decide (0 < h.held)) = true) (by
      simp [Allowed, Option.any_eq_true])
  | _, .tick _ | _, .wait _ | _, .ready _ | _, .next | _, .back | _, .construct _ _
  | _, .close _ => isTrue trivial

/-- `epoll_ctl` fails: the fd is in the set already, or it is not there. -/
def Misused (s : State) : Action → Prop
  | .add a _ => ∃ h, s.heap a = some h ∧ h.fd ∈ s.epoll.fds
  | .remove a | .modify a _ => ∃ r, s.reg a = some r ∧ r.fd ∉ s.epoll.fds
  | _ => False

/-- The operations that only concern the objects themselves. -/
def Action.counts : Action → Bool
  | .construct _ _ | .incRef _ | .decRef _ => true
  | _ => false

/-- A handler has a new deadline. -/
structure Refreshed (timeout : ℕ) (s t : State) (a : Addr) (r : Reg) : Prop where
  was : s.reg a = some r
  reg : t.reg = Function.update s.reg a (some { r with deadline := s.clock + timeout })
  epoll : t.epoll = s.epoll
  promises : t.promises = settle s.promises r.serial (.withdrawn s.clock) ++
    [⟨r.serial, s.clock + timeout, .pending⟩]

/-- What an operation does to the registered handlers, to the kernel's set and to the deadlines. -/
inductive Effect (timeout : ℕ) (s t : State) : Action → Prop
  | quiet {action : Action} (counts : action.counts = true) (reg : t.reg = s.reg)
      (epoll : t.epoll = s.epoll) (promises : t.promises = s.promises) : Effect timeout s t action
  | adds {a : Addr} {events : Events} {k : ℕ} {fd : Fd} (new : s.reg a = none)
      (live : s.live a = some k)
      (reg : t.reg = Function.update s.reg a (some ⟨k, fd, s.clock + timeout⟩))
      (epoll : s.epoll.add ⟨fd, events, some a, some k⟩ = some t.epoll)
      (promises : t.promises = s.promises ++ [⟨k, s.clock + timeout, .pending⟩]) :
      Effect timeout s t (.add a events)
  | removes {a : Addr} {r : Reg} (was : s.reg a = some r)
      (reg : t.reg = Function.update s.reg a none)
      (epoll : s.epoll.remove r.fd = some t.epoll)
      (promises : t.promises = settle s.promises r.serial (.withdrawn s.clock)) :
      Effect timeout s t (.remove a)
  | modifies {a : Addr} {events : Events} {r : Reg} (was : s.reg a = some r) (reg : t.reg = s.reg)
      (epoll : s.epoll.modify ⟨r.fd, events, some a, some r.serial⟩ = some t.epoll)
      (promises : t.promises = s.promises) : Effect timeout s t (.modify a events)
  | refreshes {a : Addr} {r : Reg} (refreshed : Refreshed timeout s t a r) :
      Effect timeout s t (.refresh a)
  | closes {fd : Fd} (reg : t.reg = s.reg) (epoll : t.epoll = s.epoll.close fd)
      (promises : t.promises = s.promises) : Effect timeout s t (.close fd)

/-- The objects that `Loop` refers to stay where they are. -/
structure Steady (temps : Addr → ℕ) (s t : State) : Prop where
  clock : t.clock = s.clock
  phase : t.phase = s.phase
  live : ∀ a, temps a ≠ 0 → t.live a = s.live a

theorem Quiet.steady {temps : Addr → ℕ} {s t : State} (quiet : Quiet temps s t) :
    Steady temps s t :=
  ⟨quiet.clock, quiet.phase, quiet.live⟩

theorem Quiet.effect {temps : Addr → ℕ} {timeout : ℕ} {s t : State} {action : Action}
    (quiet : Quiet temps s t) (counts : action.counts = true) : Effect timeout s t action :=
  .quiet counts quiet.reg quiet.epoll quiet.promises

section EPoll

variable {p q : EPoll} {entry : Interest} {fd : Fd}

theorem EPoll.add_eq_some : p.add entry = some q ↔ entry.fd ∉ p.fds ∧
    q = { p with interest := p.interest ++ [entry], total_events := p.total_events + 1 } := by
  unfold EPoll.add
  split
  · rename_i present
    simp [present]
  · rename_i absent
    simp [absent, eq_comm]

theorem EPoll.remove_eq_some : p.remove fd = some q ↔ fd ∈ p.fds ∧
    q = { p with
      interest := p.interest.filter (·.fd ≠ fd), total_events := p.total_events - 1 } := by
  unfold EPoll.remove
  split
  · rename_i present
    simp [present, eq_comm]
  · rename_i absent
    simp [absent]

theorem EPoll.modify_eq_some : p.modify entry = some q ↔ entry.fd ∈ p.fds ∧
    q = { p with interest := p.interest.map fun e => if e.fd = entry.fd then entry else e } := by
  unfold EPoll.modify
  split
  · rename_i present
    simp [present, eq_comm]
  · rename_i absent
    simp [absent]

end EPoll

variable {timeout : ℕ} {temps : Addr → ℕ} {s : State} {a : Addr}

theorem Inv.counted_of (inv : Inv timeout temps s) {h : Handler} (found : s.heap a = some h) :
    h.ref_count = h.event_loop.toNat + h.held + temps a ∧ (h.ref_count = 0 ↔ h.used = false) := by
  have here := inv.counted a
  rwa [found] at here

theorem Inv.present (inv : Inv timeout temps s) (referenced : temps a ≠ 0) :
    ∃ h, s.heap a = some h := by
  have here := inv.counted a
  cases found : s.heap a with
  | none =>
      rw [found] at here
      exact absurd here referenced
  | some h => exact ⟨h, rfl⟩

theorem add_spec {h : Handler} (inv : Inv timeout temps s) (found : s.heap a = some h)
    (off : h.event_loop = false) (events : Events) :
    (s.add timeout a events = .error .epollCtl ∧ h.fd ∈ s.epoll.fds) ∨
    ∃ t, s.add timeout a events = .ok t ∧ Inv timeout temps t ∧ Steady temps s t ∧
      Effect timeout s t (.add a events) := by
  obtain ⟨items, listed⟩ := inv.listed
  have unregistered := State.reg_of_unregistered found off
  have live : s.live a = some h.serial := by simp [State.live, found]
  have fresh : a ∉ items := by
    intro member
    obtain ⟨r, some⟩ := (listed.registered a).mp member
    rw [unregistered] at some
    cases some
  have present : (s.nodes a).isSome = true := by
    rw [inv.halves a, found]
    rfl
  obtain ⟨nodes, expire, linked, repr, dom⟩ := Linked.addTail_spec listed.repr fresh present
  obtain ⟨count, used⟩ := inv.counted_of found
  cases entered : s.epoll.add ⟨h.fd, events, some a, some h.serial⟩ with
  | none =>
      refine .inl ⟨by simp [State.add, found, off, linked, entered], ?_⟩
      apply Decidable.byContradiction
      intro absent
      simp [EPoll.add, absent] at entered
  | some epoll =>
      obtain ⟨absent, entered'⟩ := EPoll.add_eq_some.mp entered
      obtain ⟨t, ran, heap, nodes', expire', epoll', clock, phase, promises, same⟩ :
          ∃ t, s.add timeout a events = .ok t ∧
            t.heap = Function.update s.heap a (some { h with
              ref_count := h.ref_count + 1, used := true, event_loop := true
              deadline := s.clock + timeout }) ∧
            t.nodes = nodes ∧ t.expire = expire ∧ t.epoll = epoll ∧ t.clock = s.clock ∧
            t.phase = s.phase ∧
            t.promises = s.promises ++ [⟨h.serial, s.clock + timeout, .pending⟩] ∧
            t.serials = s.serials ∧ t.graves = s.graves ∧ t.calls = s.calls :=
        ⟨{ s.put a { h with
            ref_count := h.ref_count + 1, used := true, event_loop := true
            deadline := s.clock + timeout } with
          nodes, expire, epoll, reading := s.clock
          promises := s.promises ++ [⟨h.serial, s.clock + timeout, .pending⟩] },
          by simp [State.add, found, off, linked, entered],
          rfl, rfl, rfl, rfl, rfl, rfl, rfl, rfl, rfl, rfl⟩
      have reg : t.reg =
          Function.update s.reg a (some ⟨h.serial, h.fd, s.clock + timeout⟩) := reg_of_heap heap
      have otherwise : ∀ b, b ≠ a → t.reg b = s.reg b := by
        intro b other
        rw [reg, Function.update_of_ne other]
      have itself : t.reg a = some ⟨h.serial, h.fd, s.clock + timeout⟩ := by
        rw [reg, Function.update_self]
      have apart : ∀ b ∈ items, b ≠ a := fun b member it => fresh (it ▸ member)
      refine .inr ⟨t, ran, ?_, ⟨clock, phase, fun b _ => congrFun (live_same found heap rfl) b⟩,
        .adds unregistered live reg (entered.trans (by rw [epoll'])) promises⟩
      refine inv.write found heap rfl same ?_ ?_ (fun _ _ => rfl) ⟨items ++ [a], ?_, ?_, ?_, ?_⟩ ?_ ?_
      · rw [nodes']
        exact dom
      · refine ⟨?_, by simp⟩
        rw [off] at count
        simp only [Bool.toNat_false, Bool.toNat_true] at count ⊢
        omega
      · rw [nodes', expire']
        exact repr
      · intro b
        by_cases it : b = a
        · subst it
          simp [itself]
        · simp [it, otherwise b it, listed.registered b]
      · refine List.pairwise_append.mpr ⟨?_, by simp, ?_⟩
        · refine listed.sorted.imp_of_mem fun {b c} memberB memberC below r q one other => ?_
          rw [otherwise b (apart b memberB)] at one
          rw [otherwise c (apart c memberC)] at other
          exact below r q one other
        · intro b memberB c memberC r q one other
          rw [List.mem_singleton.mp memberC, itself] at other
          cases other
          rw [otherwise b (apart b memberB)] at one
          exact inv.bound b r one
      · rw [epoll', entered', List.length_append]
        exact congrArg (· + 1) listed.total
      · intro b r some
        rw [clock]
        by_cases it : b = a
        · subst it
          rw [itself] at some
          cases some
          exact Nat.le_refl _
        · rw [otherwise b it] at some
          exact inv.bound b r some
      · intro e member b data
        rw [epoll', entered'] at member
        rcases List.mem_append.mp member with old | new
        · obtain ⟨r, some, rest⟩ := inv.entries e old b data
          have it : b ≠ a := by
            rintro rfl
            rw [unregistered] at some
            cases some
          exact ⟨r, (otherwise b it).trans some, rest⟩
        · rw [List.mem_singleton.mp new] at data ⊢
          cases data
          exact ⟨_, itself, rfl, rfl⟩

/-- `Remove` leaves the reference of the loop to be dropped. -/
theorem unregister_spec {temps' : Addr → ℕ} {r : Reg} (inv : Inv timeout temps s)
    (was : s.reg a = some r) (more : temps' a = temps a + 1)
    (others : ∀ b, b ≠ a → temps' b = temps b) :
    (s.unregister a = .error .epollCtl ∧ r.fd ∉ s.epoll.fds) ∨
    ∃ t, s.unregister a = .ok t ∧ Inv timeout temps' t ∧ Steady temps' s t ∧
      t.reg = Function.update s.reg a none ∧ s.epoll.remove r.fd = some t.epoll ∧
      t.promises = settle s.promises r.serial (.withdrawn s.clock) := by
  obtain ⟨h, found, on, rfl⟩ := State.reg_eq_some.mp was
  obtain ⟨items, listed⟩ := inv.listed
  obtain ⟨front, back, rfl⟩ := List.append_of_mem ((listed.registered a).mpr ⟨_, was⟩)
  obtain ⟨nodes, expire, unlinked, repr, dom⟩ := Linked.erase_spec listed.repr
  have total := listed.total
  have positive : s.epoll.total_events ≠ 0 := by omega
  have nodup := listed.repr.nodup
  rw [List.nodup_middle, List.nodup_cons] at nodup
  obtain ⟨count, used⟩ := inv.counted_of found
  cases left : s.epoll.remove h.fd with
  | none =>
      refine .inl ⟨by simp [State.unregister, found, on, unlinked, positive, left], ?_⟩
      intro present
      simp [EPoll.remove, present] at left
  | some epoll =>
      obtain ⟨_, left'⟩ := EPoll.remove_eq_some.mp left
      obtain ⟨t, ran, heap, nodes', expire', epoll', clock, phase, promises, same⟩ :
          ∃ t, s.unregister a = .ok t ∧
            t.heap = Function.update s.heap a (some { h with event_loop := false }) ∧
            t.nodes = nodes ∧ t.expire = expire ∧ t.epoll = epoll ∧ t.clock = s.clock ∧
            t.phase = s.phase ∧
            t.promises = settle s.promises h.serial (.withdrawn s.clock) ∧
            t.serials = s.serials ∧ t.graves = s.graves ∧ t.calls = s.calls :=
        ⟨{ s.put a { h with event_loop := false } with
          nodes, expire, epoll, promises := settle s.promises h.serial (.withdrawn s.clock) },
          by simp [State.unregister, found, on, unlinked, positive, left],
          rfl, rfl, rfl, rfl, rfl, rfl, rfl, rfl, rfl, rfl⟩
      have reg : t.reg = Function.update s.reg a none := reg_of_heap heap
      have otherwise : ∀ b, b ≠ a → t.reg b = s.reg b := by
        intro b other
        rw [reg, Function.update_of_ne other]
      have itself : t.reg a = none := by
        rw [reg, Function.update_self]
      have only : ∀ b q, t.reg b = some q → b ≠ a ∧ s.reg b = some q := by
        intro b q some
        have other : b ≠ a := by
          rintro rfl
          rw [itself] at some
          cases some
        exact ⟨other, by rwa [← otherwise b other]⟩
      refine .inr ⟨t, ran, ?_, ⟨clock, phase, fun b _ => congrFun (live_same found heap rfl) b⟩,
        reg, by rw [epoll'], promises⟩
      refine inv.write found heap rfl same ?_ ?_ others ⟨front ++ back, ?_, ?_, ?_, ?_⟩ ?_ ?_
      · rw [nodes']
        exact dom
      · refine ⟨?_, used⟩
        rw [on] at count
        simp only [Bool.toNat_false, Bool.toNat_true] at count ⊢
        omega
      · rw [nodes', expire']
        exact repr
      · intro b
        by_cases it : b = a
        · subst it
          simpa [itself] using nodup.1
        · rw [otherwise b it, ← listed.registered b]
          simp [it]
      · refine (listed.sorted.sublist ?_).imp fun {b c} below r q one other =>
          below r q (only b r one).2 (only c q other).2
        exact List.Sublist.append (List.Sublist.refl _) (List.sublist_cons_self _ _)
      · rw [epoll', left']
        simp only [List.length_append, List.length_cons] at total ⊢
        omega
      · intro b q some
        rw [clock]
        exact inv.bound b q (only b q some).2
      · intro e member b data
        rw [epoll', left'] at member
        obtain ⟨old, away⟩ := List.mem_filter.mp member
        obtain ⟨q, some, fd, owner⟩ := inv.entries e old b data
        have it : b ≠ a := by
          rintro rfl
          rw [was] at some
          cases some
          simp [← fd] at away
        exact ⟨q, (otherwise b it).trans some, fd, owner⟩

theorem remove_spec {r : Reg} (inv : Inv timeout temps s) (was : s.reg a = some r) :
    (s.remove a = .error .epollCtl ∧ r.fd ∉ s.epoll.fds) ∨
    ∃ t, s.remove a = .ok t ∧ Inv timeout temps t ∧ Steady temps s t ∧
      Effect timeout s t (.remove a) := by
  rcases unregister_spec inv was (bump_self temps a) (fun _ => bump_other temps) with
    ⟨failed, absent⟩ | ⟨t, ran, inv', steady, reg, epoll, promises⟩
  · exact .inl ⟨by rw [State.remove, failed]; rfl, absent⟩
  · obtain ⟨u, dropped, inv'', quiet⟩ :=
      decRef_spec inv' (bump_self temps a) (fun _ other => (bump_other temps other).symm)
    refine .inr ⟨u, by rw [State.remove, ran]; exact dropped, inv'', ?_, ?_⟩
    · exact ⟨quiet.clock.trans steady.clock, quiet.phase.trans steady.phase,
        fun b some => (quiet.live b some).trans (steady.live b (bump_ne_zero some))⟩
    · exact .removes was (quiet.reg.trans reg) (by rw [epoll, quiet.epoll])
        (quiet.promises.trans promises)

theorem modify_spec {r : Reg} (inv : Inv timeout temps s) (was : s.reg a = some r)
    (events : Events) :
    (s.modify a events = .error .epollCtl ∧ r.fd ∉ s.epoll.fds) ∨
    ∃ t, s.modify a events = .ok t ∧ Inv timeout temps t ∧ Steady temps s t ∧
      Effect timeout s t (.modify a events) := by
  obtain ⟨h, found, on, rfl⟩ := State.reg_eq_some.mp was
  obtain ⟨items, listed⟩ := inv.listed
  have positive : s.epoll.total_events ≠ 0 := by
    rw [listed.total]
    omega
  cases changed : s.epoll.modify ⟨h.fd, events, some a, some h.serial⟩ with
  | none =>
      refine .inl ⟨by simp [State.modify, found, on, positive, changed], ?_⟩
      intro present
      simp [EPoll.modify, present] at changed
  | some epoll =>
      obtain ⟨present, changed'⟩ := EPoll.modify_eq_some.mp changed
      have total : epoll.total_events = s.epoll.total_events := by rw [changed']
      refine .inr ⟨{ s with epoll }, by simp [State.modify, found, on, positive, changed],
        ⟨inv.objects, ⟨items, listed.congr rfl rfl rfl total⟩, inv.halves, inv.counted, inv.bound,
          ?_, inv.told⟩, ⟨rfl, rfl, fun _ _ => rfl⟩, .modifies was rfl changed rfl⟩
      intro e member b data
      rw [changed'] at member
      obtain ⟨old, inside, written⟩ := List.mem_map.mp member
      split at written
      · subst written
        cases data
        exact ⟨_, was, rfl, rfl⟩
      · subst written
        exact inv.entries old inside b data

/-- The deadline of the tail is not in the way: each deadline was set before. -/
theorem late_spec (inv : Inv timeout temps s) (h : Handler) :
    (s.put a { h with deadline := s.clock + timeout }).late (s.clock + timeout) = some false := by
  obtain ⟨items, listed⟩ := inv.listed
  have here : (s.put a { h with deadline := s.clock + timeout }).expire.tail = s.expire.tail := rfl
  unfold State.late
  rw [here]
  cases last : s.expire.tail with
  | none => rfl
  | some tail =>
      by_cases it : tail = a
      · subst it
        simp [State.put]
      · have member : tail ∈ items := List.mem_of_getLast? (listed.repr.tail ▸ last)
        obtain ⟨r, some⟩ := (listed.registered tail).mp member
        obtain ⟨g, present, _, rfl⟩ := State.reg_eq_some.mp some
        have bound := inv.bound tail _ some
        dsimp only at bound
        simp only [State.put, Function.update_of_ne it, present, Option.map_some,
          Option.some.injEq, decide_eq_false_iff_not]
        omega

theorem refresh_spec {r : Reg} (inv : Inv timeout temps s) (was : s.reg a = some r) :
    ∃ t, s.refresh timeout a = .ok t ∧ Inv timeout temps t ∧ Steady temps s t ∧
      Refreshed timeout s t a r := by
  obtain ⟨h, found, on, rfl⟩ := State.reg_eq_some.mp was
  obtain ⟨items, listed⟩ := inv.listed
  obtain ⟨front, back, rfl⟩ := List.append_of_mem ((listed.registered a).mpr ⟨_, was⟩)
  obtain ⟨nodes, expire, unlinked, repr, dom⟩ := Linked.erase_spec listed.repr
  have nodup := listed.repr.nodup
  rw [List.nodup_middle, List.nodup_cons] at nodup
  have present : (nodes a).isSome = true := by
    rw [dom a, inv.halves a, found]
    rfl
  obtain ⟨nodes', expire', linked, repr', dom'⟩ := Linked.addTail_spec repr nodup.1 present
  obtain ⟨t, ran, heap, nodes'', expire'', epoll, clock, phase, promises, same⟩ :
      ∃ t, s.refresh timeout a = .ok t ∧
        t.heap = Function.update s.heap a (some { h with deadline := s.clock + timeout }) ∧
        t.nodes = nodes' ∧ t.expire = expire' ∧ t.epoll = s.epoll ∧ t.clock = s.clock ∧
        t.phase = s.phase ∧
        t.promises = settle s.promises h.serial (.withdrawn s.clock) ++
          [⟨h.serial, s.clock + timeout, .pending⟩] ∧
        t.serials = s.serials ∧ t.graves = s.graves ∧ t.calls = s.calls := by
    refine ⟨{ s.put a { h with deadline := s.clock + timeout } with
      nodes := nodes', expire := expire', reading := s.clock
      promises := settle s.promises h.serial (.withdrawn s.clock) ++
        [⟨h.serial, s.clock + timeout, .pending⟩] }, ?_,
      rfl, rfl, rfl, rfl, rfl, rfl, rfl, rfl, rfl, rfl⟩
    have moved : (Linked.erase (s.put a { h with deadline := s.clock + timeout }).nodes
        (s.put a { h with deadline := s.clock + timeout }).expire a).bind
        (fun r => Linked.addTail r.1 r.2 a) = some (nodes', expire') := by
      change (Linked.erase s.nodes s.expire a).bind _ = _
      rw [unlinked]
      exact linked
    simp only [State.refresh, found]
    rw [if_pos on, late_spec inv h]
    dsimp only
    rw [moved]
    rfl
  have reg : t.reg =
      Function.update s.reg a (some ⟨h.serial, h.fd, s.clock + timeout⟩) := by
    rw [reg_of_heap heap]
    simp [Handler.reg, on]
  have otherwise : ∀ b, b ≠ a → t.reg b = s.reg b := by
    intro b other
    rw [reg, Function.update_of_ne other]
  have itself : t.reg a = some ⟨h.serial, h.fd, s.clock + timeout⟩ := by
    rw [reg, Function.update_self]
  have apart : ∀ b ∈ front ++ back, b ≠ a := fun b member it => nodup.1 (it ▸ member)
  refine ⟨t, ran, ?_, ⟨clock, phase, fun b _ => congrFun (live_same found heap rfl) b⟩,
    was, reg, epoll, promises⟩
  obtain ⟨count, used⟩ := inv.counted_of found
  refine inv.write found heap rfl same ?_ ⟨count, used⟩ (fun _ _ => rfl)
    ⟨front ++ back ++ [a], ?_, ?_, ?_, ?_⟩ ?_ ?_
  · intro b
    rw [nodes'', dom' b, dom b]
  · rw [nodes'', expire'']
    exact repr'
  · intro b
    by_cases it : b = a
    · subst it
      simp [itself]
    · rw [otherwise b it, ← listed.registered b]
      simp [it]
  · refine List.pairwise_append.mpr ⟨?_, by simp, ?_⟩
    · have shorter : List.Sublist (front ++ back) (front ++ a :: back) :=
        List.Sublist.append (List.Sublist.refl _) (List.sublist_cons_self _ _)
      refine (listed.sorted.sublist shorter).imp_of_mem
        fun {b c} memberB memberC below r q one other => ?_
      rw [otherwise b (apart b memberB)] at one
      rw [otherwise c (apart c memberC)] at other
      exact below r q one other
    · intro b memberB c memberC r q one other
      rw [List.mem_singleton.mp memberC, itself] at other
      cases other
      rw [otherwise b (apart b memberB)] at one
      exact inv.bound b r one
  · rw [epoll, listed.total]
    simp only [List.length_append, List.length_cons, List.length_nil]
    omega
  · intro b q some
    rw [clock]
    by_cases it : b = a
    · subst it
      rw [itself] at some
      cases some
      exact Nat.le_refl _
    · rw [otherwise b it] at some
      exact inv.bound b q some
  · intro e member b data
    rw [epoll] at member
    obtain ⟨q, some, fd, owner⟩ := inv.entries e member b data
    by_cases it : b = a
    · subst it
      rw [was] at some
      cases some
      exact ⟨_, itself, fd, owner⟩
    · exact ⟨q, (otherwise b it).trans some, fd, owner⟩

theorem close_spec (inv : Inv timeout temps s) (fd : Fd) :
    Inv timeout temps { s with epoll := s.epoll.close fd } := by
  obtain ⟨items, listed⟩ := inv.listed
  refine ⟨inv.objects, ⟨items, listed.congr rfl rfl rfl rfl⟩, inv.halves, inv.counted, inv.bound,
    ?_, inv.told⟩
  intro e member b data
  exact inv.entries e (List.mem_filter.mp member).1 b data

theorem construct_spec (inv : Inv timeout temps s) (vacant : s.heap a = none) (fd : Fd) :
    ∃ t, s.mutate timeout (.construct a fd) = some (.ok t) ∧ Inv timeout temps t ∧
      Quiet temps s t := by
  obtain ⟨items, listed⟩ := inv.listed
  have here := inv.counted a
  rw [vacant] at here
  have noReg : s.reg a = none := by simp [State.reg, vacant]
  have noLive : s.live a = none := by simp [State.live, vacant]
  have fresh : a ∉ items := by
    intro member
    obtain ⟨r, some⟩ := (listed.registered a).mp member
    rw [noReg] at some
    cases some
  obtain ⟨t, ran, heap, nodes, serials, expire, epoll, clock, phase, promises, graves, calls⟩ :
      ∃ t, s.mutate timeout (.construct a fd) = some (.ok t) ∧
        t.heap = Function.update s.heap a (some { fd, serial := s.serials }) ∧
        t.nodes = Function.update s.nodes a (some {}) ∧ t.serials = s.serials + 1 ∧
        t.expire = s.expire ∧ t.epoll = s.epoll ∧ t.clock = s.clock ∧ t.phase = s.phase ∧
        t.promises = s.promises ∧ t.graves = s.graves ∧ t.calls = s.calls :=
    ⟨{ s.put a { fd, serial := s.serials } with
      nodes := Function.update s.nodes a (some {}), serials := s.serials + 1 },
      by simp [State.mutate, vacant], rfl, rfl, rfl, rfl, rfl, rfl, rfl, rfl, rfl, rfl⟩
  have reg : t.reg = s.reg := by
    rw [reg_of_heap heap]
    exact Function.update_eq_self_iff.mpr noReg.symm
  have live : t.live = Function.update s.live a (some s.serials) := live_of_heap heap
  refine ⟨t, ran, ⟨?_, ⟨items, ?_, ?_, ?_, ?_⟩, ?_, ?_, ?_, ?_, ?_⟩, reg, clock, epoll, phase,
    promises, ?_⟩
  · rw [live, serials, graves]
    exact inv.objects.construct noLive
  · rw [nodes, expire]
    exact listed.repr.update fresh (by rintro node ⟨⟩; rfl)
  · rw [reg]
    exact listed.registered
  · rw [reg]
    exact listed.sorted
  · rw [epoll]
    exact listed.total
  · rw [nodes, heap]
    exact isSome_update inv.halves rfl
  · rw [heap]
    refine counted_update inv.counted ⟨?_, by simp⟩ fun _ _ => rfl
    exact (Nat.zero_add _).symm.trans (by rw [show temps a = 0 from here]; rfl)
  · rw [reg, clock]
    exact inv.bound
  · rw [reg, epoll]
    exact inv.entries
  · rw [calls]
    exact inv.told
  · intro b some
    have other : b ≠ a := by
      rintro rfl
      exact some here
    rw [live, Function.update_of_ne other]

/-- What an allowed operation ends with: `epoll_ctl` fails because of the fd, or the operation
returns and has its effect. -/
theorem mutate_spec {action : Action} {result : Except Stop State} (inv : Inv timeout temps s)
    (allowed : Allowed s action) (ran : s.mutate timeout action = some result) :
    (result = .error .epollCtl ∧ Misused s action) ∨
    ∃ t, result = .ok t ∧ Inv timeout temps t ∧ Steady temps s t ∧ Effect timeout s t action := by
  cases action with
  | tick | wait | ready | next | back => cases ran
  | construct a fd =>
      have vacant : s.heap a = none := by
        simp only [State.mutate] at ran
        split at ran
        · rename_i none
          simpa using none
        · cases ran
      obtain ⟨t, constructed, inv', quiet⟩ := construct_spec inv vacant fd
      rw [constructed] at ran
      cases ran
      exact .inr ⟨t, rfl, inv', quiet.steady, quiet.effect rfl⟩
  | add a events =>
      obtain ⟨h, found, off⟩ := allowed
      cases ran
      rcases add_spec inv found off events with ⟨failed, present⟩ | done
      · exact .inl ⟨failed, h, found, present⟩
      · exact .inr done
  | remove a =>
      obtain ⟨r, was⟩ := allowed
      cases ran
      rcases remove_spec inv was with ⟨failed, absent⟩ | done
      · exact .inl ⟨failed, r, was, absent⟩
      · exact .inr done
  | modify a events =>
      obtain ⟨r, was⟩ := allowed
      cases ran
      rcases modify_spec inv was events with ⟨failed, absent⟩ | done
      · exact .inl ⟨failed, r, was, absent⟩
      · exact .inr done
  | refresh a =>
      obtain ⟨r, was⟩ := allowed
      cases ran
      obtain ⟨t, ran, inv', steady, refreshed⟩ := refresh_spec inv was
      exact .inr ⟨t, ran, inv', steady, .refreshes refreshed⟩
  | incRef a =>
      obtain ⟨h, found⟩ := allowed
      cases ran
      obtain ⟨t, taken, inv', quiet, _⟩ :=
        incRef_spec inv found (bump_self temps a) (fun _ => bump_other temps)
      obtain ⟨g, found'⟩ := inv'.present (by rw [bump_self]; omega)
      obtain ⟨inv'', quiet'⟩ : Inv timeout temps (t.hold a (· + 1)) ∧ Quiet temps t _ :=
        hold_spec (· + 1) inv' found' (by rw [bump_self]; omega)
          fun _ other => (bump_other temps other).symm
      have whole := (quiet.mono fun _ => bump_ne_zero).trans quiet'
      exact .inr ⟨t.hold a (· + 1), by rw [taken]; rfl, inv'', whole.steady, whole.effect rfl⟩
  | decRef a =>
      obtain ⟨h, found, held⟩ := allowed
      cases ran
      obtain ⟨inv', quiet⟩ : Inv timeout (bump temps a) (s.hold a (· - 1)) ∧ Quiet _ s _ :=
        hold_spec (· - 1) inv found (by rw [bump_self]; omega) fun _ => bump_other temps
      obtain ⟨t, dropped, inv'', quiet'⟩ :=
        decRef_spec inv' (bump_self temps a) (fun _ other => (bump_other temps other).symm)
      have whole := (quiet.mono fun _ => bump_ne_zero).trans quiet'
      exact .inr ⟨t, dropped, inv'', whole.steady, whole.effect rfl⟩
  | close fd =>
      cases ran
      exact .inr ⟨_, rfl, close_spec inv fd, ⟨rfl, rfl, fun _ _ => rfl⟩, .closes rfl rfl rfl⟩

end Hcproxy.Loop
