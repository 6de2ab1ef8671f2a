import Hcproxy.LoopOps

set_option autoImplicit false

namespace Hcproxy.Loop

/-- The references that `Loop` holds for the events it has not got to. -/
def temporary (todo : List Event) (a : Addr) : ℕ := todo.countP (·.data == some a)

/-- The references that `Loop` holds. -/
def Phase.temps : Phase → Addr → ℕ
  | .dispatching todo | .running todo => temporary todo
  | .handling eh todo => bump (temporary todo) eh
  | .timingOut eh => bump (fun _ => 0) eh
  | .waiting | .polling _ | .expiring | .stopped _ => fun _ => 0

def Phase.todo : Phase → List Event
  | .dispatching todo | .handling _ todo | .running todo => todo
  | .waiting | .polling _ | .expiring | .timingOut _ | .stopped _ => []

/-- The handlers of these events are the objects that the events were registered for. -/
def Owned (s : State) (todo : List Event) : Prop :=
  ∀ ev ∈ todo, ∀ a, ev.data = some a → ∃ k, ev.owner = some k ∧ s.live a = some k

structure Safe (timeout : ℕ) (s : State) : Prop where
  stops : ∀ why, s.phase = .stopped why → why = .epollCtl
  inv : ∃ temps, Inv timeout temps s ∧ ((∀ why, s.phase ≠ .stopped why) → temps = s.phase.temps)
  owned : Owned s s.phase.todo
  room : ∀ since, s.phase = .polling since → s.epoll.total_events ≤ s.epoll.size

/-- How much of a batch is left. -/
def Phase.work : Phase → ℕ
  | .dispatching todo => 2 * todo.length + 1
  | .handling _ todo | .running todo => 2 * todo.length + 2
  | .waiting | .polling _ | .expiring | .timingOut _ | .stopped _ => 0

/-- `Loop` is on its own way between two calls of `epoll_wait`. -/
def Phase.Inside : Phase → Prop
  | .dispatching _ | .handling _ _ | .running _ | .expiring => True
  | .waiting | .polling _ | .timingOut _ | .stopped _ => False

structure Still (s t : State) : Prop where
  reg : t.reg = s.reg
  epoll : t.epoll = s.epoll
  promises : t.promises = s.promises
  clock : t.clock = s.clock

/-- What a step does to everything but the references. -/
inductive Stepped (timeout : ℕ) (s t : State) : Action → Prop
  | ticks {elapsed : ℕ} (reg : t.reg = s.reg) (epoll : t.epoll = s.epoll)
      (promises : t.promises = s.promises) (phase : t.phase = s.phase)
      (reading : t.reading = s.reading) (clock : t.clock = s.clock + elapsed) :
      Stepped timeout s t (.tick elapsed)
  | waits {capacity : ℕ} (reg : t.reg = s.reg) (interest : t.epoll.interest = s.epoll.interest)
      (total : t.epoll.total_events = s.epoll.total_events) (promises : t.promises = s.promises)
      (clock : t.clock = s.clock) (reading : t.reading = s.reading) (before : s.phase = .waiting)
      (after : t.phase = .polling s.clock) : Stepped timeout s t (.wait capacity)
  | returns {batch : List (Interest × Events)} {since : ℕ} {todo : List Event} (still : Still s t)
      (before : s.phase = .polling since) (after : t.phase = .dispatching todo) :
      Stepped timeout s t (.ready batch)
  | goesOn {action : Action} (own : action = .next ∨ action = .back) (still : Still s t)
      (before : s.phase.Inside) (after : t.phase.Inside) (less : t.phase.work < s.phase.work) :
      Stepped timeout s t action
  | rests (still : Still s t) (before : s.phase = .expiring) (after : t.phase = .waiting)
      (due : ∀ a r, s.reg a = some r → t.reading = s.clock ∧ s.clock < r.deadline) :
      Stepped timeout s t .next
  | expires {a : Addr} {r : Reg} (reg : t.reg = s.reg) (epoll : t.epoll = s.epoll)
      (clock : t.clock = s.clock) (before : s.phase = .expiring) (after : t.phase = .timingOut a)
      (head : s.reg a = some r) (due : r.deadline ≤ s.clock)
      (promises : t.promises = settle s.promises r.serial (.fired s.clock)) :
      Stepped timeout s t .next
  | leaves {a : Addr} (still : Still s t) (before : s.phase = .timingOut a)
      (after : t.phase = .expiring) (gone : s.reg a = none) : Stepped timeout s t .back
  | timedOut {a : Addr} {r : Reg} (clock : t.clock = s.clock) (before : s.phase = .timingOut a)
      (after : t.phase = .expiring) (refreshed : Refreshed timeout s t a r) :
      Stepped timeout s t .back
  | mutates {action : Action} (clock : t.clock = s.clock) (calls : s.phase.calls = true)
      (phase : t.phase = s.phase) (effect : Effect timeout s t action) :
      Stepped timeout s t action
  | stops {action : Action} (still : Still s t) (after : t.phase = .stopped .epollCtl)
      (misused : Misused s action) : Stepped timeout s t action

variable {timeout : ℕ} {temps temps' : Addr → ℕ} {s t : State}

section Temporary

theorem temporary_none {ev : Event} (todo : List Event) (data : ev.data = none) :
    temporary (ev :: todo) = temporary todo := by
  funext a
  simp [temporary, data]

theorem temporary_some {ev : Event} {a : Addr} (todo : List Event) (data : ev.data = some a) :
    temporary (ev :: todo) = bump (temporary todo) a := by
  funext b
  by_cases it : b = a
  · subst it
    rw [bump_self]
    simp [temporary, data]
  · rw [bump_other _ it]
    simp [temporary, data, Ne.symm it]

theorem temporary_ne_zero {todo : List Event} {ev : Event} {a : Addr} (member : ev ∈ todo)
    (data : ev.data = some a) : temporary todo a ≠ 0 := by
  have positive : 0 < temporary todo a := List.countP_pos_iff.mpr ⟨ev, member, by simp [data]⟩
  omega

theorem Phase.temps_ne_zero {phase : Phase} {ev : Event} {a : Addr} (member : ev ∈ phase.todo)
    (data : ev.data = some a) : phase.temps a ≠ 0 := by
  cases phase with
  | dispatching todo | running todo => exact temporary_ne_zero member data
  | handling eh todo => exact bump_ne_zero (temporary_ne_zero member data)
  | waiting | polling | expiring | timingOut | stopped => cases member

theorem Owned.kept {todo : List Event} (owned : Owned s todo)
    (live : ∀ ev ∈ todo, ∀ a, ev.data = some a → t.live a = s.live a) : Owned t todo := by
  intro ev member a data
  obtain ⟨k, owner, here⟩ := owned ev member a data
  exact ⟨k, owner, (live ev member a data).trans here⟩

theorem State.live_of_reg {a : Addr} {r : Reg} (was : s.reg a = some r) :
    s.live a = some r.serial := by
  obtain ⟨h, found, _, rfl⟩ := State.reg_eq_some.mp was
  simp [State.live, found]

theorem State.heap_of_live {a : Addr} {k : ℕ} (here : s.live a = some k) :
    ∃ h, s.heap a = some h ∧ h.serial = k := Option.map_eq_some_iff.mp here

end Temporary

/-- The invariant does not depend on where `Loop` is, nor on what has been recorded last. -/
theorem Inv.congr (inv : Inv timeout temps s) (clock : s.clock ≤ t.clock) (heap : t.heap = s.heap)
    (nodes : t.nodes = s.nodes) (expire : t.expire = s.expire)
    (interest : t.epoll.interest = s.epoll.interest)
    (total : t.epoll.total_events = s.epoll.total_events) (serials : t.serials = s.serials)
    (graves : t.graves = s.graves)
    (told : ∀ c ∈ t.calls, c.registered = true ∧ ∀ owner, c.owner = some owner → owner = c.serial) :
    Inv timeout temps t := by
  have reg : t.reg = s.reg := by
    funext a
    rw [State.reg, State.reg, heap]
  have live : t.live = s.live := by
    funext a
    rw [State.live, State.live, heap]
  refine ⟨?_, ?_, ?_, ?_, ?_, ?_, told⟩
  · rw [live, serials, graves]
    exact inv.objects
  · obtain ⟨items, listed⟩ := inv.listed
    exact ⟨items, listed.congr nodes expire reg total⟩
  · rw [nodes, heap]
    exact inv.halves
  · rw [heap]
    exact inv.counted
  · intro a r some
    rw [reg] at some
    exact Nat.le_trans (inv.bound a r some) (Nat.add_le_add_right clock timeout)
  · rw [interest, reg]
    exact inv.entries

/-- The first pass references each handler as often as it occurs. -/
theorem prepass_spec {events : List Event} (inv : Inv timeout temps s) (owned : Owned s events) :
    ∃ t, s.prepass events = .ok t ∧
      Inv timeout (fun a => temps a + temporary events a) t ∧ Still s t ∧ t.live = s.live := by
  induction events generalizing s temps with
  | nil => exact ⟨s, rfl, inv, ⟨rfl, rfl, rfl, rfl⟩, rfl⟩
  | cons ev rest ih =>
      have later : Owned s rest := fun e member => owned e (List.mem_cons_of_mem _ member)
      cases data : ev.data with
      | none =>
          obtain ⟨t, ran, inv', still⟩ := ih inv later
          refine ⟨t, by rw [State.prepass, data]; exact ran, ?_, still⟩
          rwa [temporary_none rest data]
      | some a =>
          obtain ⟨k, _, here⟩ := owned ev List.mem_cons_self a data
          obtain ⟨h, found, _⟩ := State.heap_of_live here
          obtain ⟨u, taken, inv', quiet, live⟩ :=
            incRef_spec inv found (bump_self temps a) (fun _ => bump_other temps)
          have later' : Owned u rest := later.kept fun _ _ b _ => congrFun live b
          obtain ⟨t, ran, inv'', still, live'⟩ := ih inv' later'
          refine ⟨t, by simp only [State.prepass, data, taken]; exact ran, ?_, ?_, live'.trans live⟩
          · have same : (fun b => temps b + temporary (ev :: rest) b) =
                fun b => bump temps a b + temporary rest b := by
              funext b
              rw [temporary_some rest data]
              by_cases it : b = a
              · subst it
                rw [bump_self, bump_self]
                omega
              · rw [bump_other _ it, bump_other _ it]
            rwa [same]
          · exact ⟨still.reg.trans quiet.reg, still.epoll.trans quiet.epoll,
              still.promises.trans quiet.promises, still.clock.trans quiet.clock⟩

/-- `Loop` may go on from here, inside a batch or the pass after it. -/
structure Ready (timeout : ℕ) (t : State) : Prop where
  inv : Inv timeout t.phase.temps t
  owned : Owned t t.phase.todo

theorem Ready.safe (ready : Ready timeout t) (running : ∀ why, t.phase ≠ .stopped why)
    (busy : ∀ since, t.phase ≠ .polling since) : Safe timeout t :=
  ⟨fun why stopped => absurd stopped (running why), ⟨_, ready.inv, fun _ => rfl⟩, ready.owned,
    fun since polling => absurd polling (busy since)⟩

theorem dispatch_spec {ev : Event} {todo : List Event}
    (inv : Inv timeout (temporary (ev :: todo)) s) (owned : Owned s (ev :: todo)) :
    ∃ t, s.dispatch ev todo = .ok t ∧ Ready timeout t ∧ t.phase.Inside ∧ Still s t ∧
      t.phase.work ≤ 2 * todo.length + 2 := by
  have later : Owned s todo := fun e member => owned e (List.mem_cons_of_mem _ member)
  cases data : ev.data with
  | none =>
      rw [temporary_none todo data] at inv
      refine ⟨{ s with phase := .running todo }, by simp [State.dispatch, data],
        ⟨?_, later⟩, trivial, ⟨rfl, rfl, rfl, rfl⟩, Nat.le_refl _⟩
      exact inv.congr (Nat.le_refl _) rfl rfl rfl rfl rfl rfl rfl inv.told
  | some a =>
      rw [temporary_some todo data] at inv
      obtain ⟨k, owner, here⟩ := owned ev List.mem_cons_self a data
      obtain ⟨h, found, rfl⟩ := State.heap_of_live here
      by_cases on : h.event_loop = true
      · refine ⟨{ s with
          phase := .handling a todo
          calls := s.calls ++ [⟨h.serial, h.event_loop, ev.owner⟩] },
          by simp [State.dispatch, data, found, on], ⟨?_, later⟩, trivial, ⟨rfl, rfl, rfl, rfl⟩,
          Nat.le_refl _⟩
        refine inv.congr (Nat.le_refl _) rfl rfl rfl rfl rfl rfl rfl fun c member => ?_
        rcases List.mem_append.mp member with old | new
        · exact inv.told c old
        · rw [List.mem_singleton.mp new]
          refine ⟨on, fun other given => ?_⟩
          rw [owner] at given
          exact (Option.some.inj given).symm
      · obtain ⟨t, dropped, inv', quiet⟩ :=
          decRef_spec inv (bump_self _ a) (fun _ other => (bump_other _ other).symm)
        refine ⟨{ t with phase := .dispatching todo },
          by simp [State.dispatch, data, found, on, dropped, Except.map], ⟨?_, ?_⟩, trivial,
          ⟨quiet.reg, quiet.epoll, quiet.promises, quiet.clock⟩, Nat.le_succ _⟩
        · exact inv'.congr (Nat.le_refl _) rfl rfl rfl rfl rfl rfl rfl inv'.told
        · exact later.kept fun e member b data =>
            quiet.live b (temporary_ne_zero member data)

/-- The head of `expire_` is the first to be due. -/
theorem Inv.head (inv : Inv timeout temps s) {a : Addr} (head : s.expire.head = some a) :
    ∃ r, s.reg a = some r ∧ ∀ b q, s.reg b = some q → r.deadline ≤ q.deadline := by
  obtain ⟨items, listed⟩ := inv.listed
  have first := listed.repr.head
  rw [head] at first
  obtain ⟨rest, rfl⟩ := List.head?_eq_some_iff.mp first.symm
  obtain ⟨r, some⟩ := (listed.registered a).mp List.mem_cons_self
  refine ⟨r, some, fun b q other => ?_⟩
  rcases List.mem_cons.mp ((listed.registered b).mpr ⟨q, other⟩) with rfl | member
  · rw [some] at other
    cases other
    exact Nat.le_refl _
  · exact List.rel_of_pairwise_cons listed.sorted member r q some other

theorem Inv.no_head (inv : Inv timeout temps s) (head : s.expire.head = none) (a : Addr) :
    s.reg a = none := by
  obtain ⟨items, listed⟩ := inv.listed
  have first := listed.repr.head
  rw [head] at first
  have empty := List.head?_eq_none_iff.mp first.symm
  subst empty
  cases found : s.reg a with
  | none => rfl
  | some r => exact absurd ((listed.registered a).mpr ⟨r, found⟩) List.not_mem_nil

theorem expireHead_spec (inv : Inv timeout (fun _ => 0) s) (expiring : s.phase = .expiring) :
    ∃ t, s.expireHead = .ok t ∧ Ready timeout t ∧ (∀ why, t.phase ≠ .stopped why) ∧
      (∀ since, t.phase ≠ .polling since) ∧ Stepped timeout s t .next := by
  cases head : s.expire.head with
  | none =>
      refine ⟨{ s with phase := .waiting }, by simp [State.expireHead, head], ⟨?_, ?_⟩, by simp,
        by simp, .rests ⟨rfl, rfl, rfl, rfl⟩ expiring rfl fun a r some => ?_⟩
      · exact inv.congr (Nat.le_refl _) rfl rfl rfl rfl rfl rfl rfl inv.told
      · intro ev member
        cases member
      · rw [inv.no_head head a] at some
        cases some
  | some a =>
      obtain ⟨r, was, least⟩ := inv.head head
      obtain ⟨h, found, on, rfl⟩ := State.reg_eq_some.mp was
      by_cases later : s.clock < h.deadline
      · refine ⟨{ s with phase := .waiting, reading := s.clock },
          by simp [State.expireHead, head, found, later], ⟨?_, ?_⟩, by simp, by simp,
          .rests ⟨rfl, rfl, rfl, rfl⟩ expiring rfl fun b q some => ?_⟩
        · exact inv.congr (Nat.le_refl _) rfl rfl rfl rfl rfl rfl rfl inv.told
        · intro ev member
          cases member
        · exact ⟨rfl, Nat.lt_of_lt_of_le later (least b q some)⟩
      · obtain ⟨t, taken, inv', quiet, live⟩ :=
          incRef_spec inv found (bump_self _ a) (fun _ => bump_other (fun _ => 0))
        refine ⟨{ t with
          phase := .timingOut a
          reading := t.clock
          calls := t.calls ++ [⟨h.serial, h.event_loop, none⟩]
          promises := settle t.promises h.serial (.fired t.clock) }, ?_, ⟨?_, ?_⟩, by simp, by simp,
          .expires quiet.reg quiet.epoll quiet.clock expiring rfl was (by dsimp only; omega) ?_⟩
        · simp [State.expireHead, head, found, later, on, taken, Except.map]
        · refine inv'.congr (Nat.le_refl _) rfl rfl rfl rfl rfl rfl rfl fun c member => ?_
          rcases List.mem_append.mp member with old | new
          · exact inv'.told c old
          · rw [List.mem_singleton.mp new]
            exact ⟨on, fun owner given => by cases given⟩
        · intro ev member
          cases member
        · dsimp only
          rw [quiet.promises, quiet.clock]

theorem timedOut_spec {a : Addr} (inv : Inv timeout (bump (fun _ => 0) a) s) :
    ∃ t, s.timedOut timeout a = .ok t ∧ Inv timeout (fun _ => 0) t ∧ t.phase = .expiring ∧
      (s.reg a = none ∧ Still s t ∨
        t.clock = s.clock ∧ ∃ r, Refreshed timeout s t a r) := by
  obtain ⟨h, found⟩ := inv.present (by rw [bump_self]; omega)
  have drop : ∀ u : State, Inv timeout (bump (fun _ => 0) a) u →
      ∃ t, (u.decRef a).map (fun s => { s with phase := .expiring }) = .ok t ∧
        Inv timeout (fun _ => 0) t ∧ t.phase = .expiring ∧ Still u t := by
    intro u inv
    obtain ⟨t, dropped, inv', quiet⟩ :=
      decRef_spec inv (bump_self _ a) (fun _ other => (bump_other _ other).symm)
    refine ⟨{ t with phase := .expiring }, by rw [dropped]; rfl, ?_, rfl, quiet.reg, quiet.epoll,
      quiet.promises, quiet.clock⟩
    exact inv'.congr (Nat.le_refl _) rfl rfl rfl rfl rfl rfl rfl inv'.told
  by_cases on : h.event_loop = true
  · obtain ⟨u, ran, inv', steady, refreshed⟩ :=
      refresh_spec inv (State.reg_of_registered found on)
    obtain ⟨t, dropped, inv'', phase, still⟩ := drop u inv'
    refine ⟨t, ?_, inv'', phase, .inr ⟨still.clock.trans steady.clock, _, refreshed.was,
      still.reg.trans refreshed.reg, still.epoll.trans refreshed.epoll,
      still.promises.trans refreshed.promises⟩⟩
    simp only [State.timedOut, found, on, ↓reduceIte, ran]
    exact dropped
  · obtain ⟨t, dropped, inv', phase, still⟩ := drop s inv
    refine ⟨t, ?_, inv', phase,
      .inl ⟨State.reg_of_unregistered found (Bool.eq_false_iff.mpr on), still⟩⟩
    simp only [State.timedOut, found, on]
    exact dropped

theorem Safe.running (safe : Safe timeout s) (running : ∀ why, s.phase ≠ .stopped why) :
    Inv timeout s.phase.temps s := by
  obtain ⟨temps, inv, known⟩ := safe.inv
  rwa [known running] at inv

/-- A computation of `Loop` that does not stop. -/
theorem after_ok {result : Except Stop State} {u : State} (ran : result = .ok u)
    (stepped : some (s.after result) = some t) : t = u := by
  rw [ran] at stepped
  exact (Option.some.inj stepped).symm

theorem ready_spec {batch : List (Interest × Events)} (safe : Safe timeout s)
    (stepped : step timeout s (.ready batch) = some t) :
    Safe timeout t ∧ Stepped timeout s t (.ready batch) := by
  cases phase : s.phase with
  | polling since =>
      have inv := safe.running (by simp [phase])
      rw [phase] at inv
      have room := safe.room since phase
      obtain ⟨items, listed⟩ := inv.listed
      have total := listed.total
      have size : s.epoll.size ≠ 0 := by omega
      simp only [step, phase, size, ↓reduceIte] at stepped
      split at stepped
      · rename_i possible
        have owned : Owned s (reported batch) := by
          intro ev member a data
          obtain ⟨e, inside, rfl⟩ := List.mem_map.mp member
          obtain ⟨r, was, _, owner⟩ := inv.entries e.1 (possible.2.2 e inside) a data
          exact ⟨r.serial, owner, State.live_of_reg was⟩
        obtain ⟨u, ran, inv', still, live⟩ := prepass_spec inv owned
        have same : (fun a => Phase.temps (.polling since) a + temporary (reported batch) a) =
            temporary (reported batch) := funext fun a => Nat.zero_add _
        rw [same] at inv'
        obtain rfl := after_ok (by rw [ran]; rfl) stepped
        have ready : Ready timeout { u with phase := .dispatching (reported batch) } := by
          refine ⟨?_, ?_⟩
          · exact inv'.congr (Nat.le_refl _) rfl rfl rfl rfl rfl rfl rfl inv'.told
          · exact owned.kept fun _ _ a _ => congrFun live a
        exact ⟨ready.safe (by simp) (by simp),
          .returns ⟨still.reg, still.epoll, still.promises, still.clock⟩ phase rfl⟩
      · cases stepped
  | waiting | dispatching | handling | running | expiring | timingOut | stopped =>
      simp [step, phase] at stepped

theorem next_spec (safe : Safe timeout s) (stepped : step timeout s .next = some t) :
    Safe timeout t ∧ Stepped timeout s t .next := by
  cases phase : s.phase with
  | dispatching todo =>
      have inv := safe.running (by simp [phase])
      have owned := safe.owned
      rw [phase] at inv owned
      cases todo with
      | nil =>
          simp only [step, phase, Option.some.injEq] at stepped
          subst stepped
          have ready : Ready timeout { s with phase := .expiring } := by
            refine ⟨?_, fun ev member => by cases member⟩
            exact inv.congr (Nat.le_refl _) rfl rfl rfl rfl rfl rfl rfl inv.told
          exact ⟨ready.safe (by simp) (by simp),
            .goesOn (.inl rfl) ⟨rfl, rfl, rfl, rfl⟩ (by rw [phase]; trivial) trivial
              (by simp [phase, Phase.work])⟩
      | cons ev todo =>
          simp only [step, phase] at stepped
          obtain ⟨u, ran, ready, inside, still, work⟩ := dispatch_spec inv owned
          obtain rfl := after_ok ran stepped
          refine ⟨ready.safe ?_ ?_, .goesOn (.inl rfl) still (by rw [phase]; trivial) inside ?_⟩
          · intro why stopped
            rw [stopped] at inside
            exact inside
          · intro since polling
            rw [polling] at inside
            exact inside
          · refine Nat.lt_of_le_of_lt work ?_
            simp only [phase, Phase.work, List.length_cons]
            omega
  | expiring =>
      have inv := safe.running (by simp [phase])
      rw [phase] at inv
      simp only [step, phase] at stepped
      obtain ⟨u, ran, ready, running, busy, moved⟩ := expireHead_spec inv phase
      obtain rfl := after_ok ran stepped
      exact ⟨ready.safe running busy, moved⟩
  | waiting | polling | handling | running | timingOut | stopped => simp [step, phase] at stepped

theorem back_spec (safe : Safe timeout s) (stepped : step timeout s .back = some t) :
    Safe timeout t ∧ Stepped timeout s t .back := by
  cases phase : s.phase with
  | handling a todo =>
      have inv := safe.running (by simp [phase])
      have owned := safe.owned
      rw [phase] at inv owned
      simp only [step, phase] at stepped
      obtain ⟨u, dropped, inv', quiet⟩ :=
        decRef_spec inv (bump_self _ a) (fun _ other => (bump_other _ other).symm)
      obtain rfl := after_ok (by rw [dropped]; rfl) stepped
      have ready : Ready timeout { u with phase := .dispatching todo } := by
        refine ⟨?_, ?_⟩
        · exact inv'.congr (Nat.le_refl _) rfl rfl rfl rfl rfl rfl rfl inv'.told
        · exact owned.kept fun ev member b data => quiet.live b (temporary_ne_zero member data)
      exact ⟨ready.safe (by simp) (by simp),
        .goesOn (.inr rfl) ⟨quiet.reg, quiet.epoll, quiet.promises, quiet.clock⟩
          (by rw [phase]; trivial) trivial (by simp [phase, Phase.work])⟩
  | running todo =>
      have inv := safe.running (by simp [phase])
      have owned := safe.owned
      rw [phase] at inv owned
      simp only [step, phase, Option.some.injEq] at stepped
      subst stepped
      have ready : Ready timeout { s with phase := .dispatching todo } := by
        refine ⟨?_, owned⟩
        exact inv.congr (Nat.le_refl _) rfl rfl rfl rfl rfl rfl rfl inv.told
      exact ⟨ready.safe (by simp) (by simp),
        .goesOn (.inr rfl) ⟨rfl, rfl, rfl, rfl⟩ (by rw [phase]; trivial) trivial
          (by simp [phase, Phase.work])⟩
  | timingOut a =>
      have inv := safe.running (by simp [phase])
      rw [phase] at inv
      simp only [step, phase] at stepped
      obtain ⟨u, ran, inv', expiring, left⟩ := timedOut_spec inv
      obtain rfl := after_ok ran stepped
      have ready : Ready timeout t := by
        refine ⟨by rwa [expiring], ?_⟩
        rw [expiring]
        intro ev member
        cases member
      refine ⟨ready.safe (by simp [expiring]) (by simp [expiring]), ?_⟩
      rcases left with ⟨gone, still⟩ | ⟨clock, r, refreshed⟩
      · exact .leaves still phase expiring gone
      · exact .timedOut clock phase expiring refreshed
  | waiting | polling | dispatching | expiring | stopped => simp [step, phase] at stepped

theorem mutate_step {action : Action} (safe : Safe timeout s) (allowed : Allowed s action)
    (stepped : (if s.phase.calls then (s.mutate timeout action).map s.after else none) = some t) :
    Safe timeout t ∧ Stepped timeout s t action := by
  split at stepped
  · rename_i calls
    obtain ⟨result, ran, rfl⟩ := Option.map_eq_some_iff.mp stepped
    have running : ∀ why, s.phase ≠ .stopped why := by
      intro why stopped
      rw [stopped] at calls
      cases calls
    have inv := safe.running running
    rcases mutate_spec inv allowed ran with ⟨rfl, misused⟩ | ⟨u, rfl, inv', steady, effect⟩
    · refine ⟨⟨?_, ⟨s.phase.temps, ?_, fun running => absurd rfl (running .epollCtl)⟩, ?_, ?_⟩,
        .stops ⟨rfl, rfl, rfl, rfl⟩ rfl misused⟩
      · rintro why ⟨⟩
        rfl
      · exact inv.congr (Nat.le_refl _) rfl rfl rfl rfl rfl rfl rfl inv.told
      · intro ev member
        cases member
      · rintro since ⟨⟩
    · change Safe timeout u ∧ Stepped timeout s u action
      have ready : Ready timeout u := by
        rw [← steady.phase] at inv'
        refine ⟨inv', ?_⟩
        rw [steady.phase]
        exact safe.owned.kept fun ev member a data =>
          steady.live a (Phase.temps_ne_zero member data)
      refine ⟨ready.safe (by rwa [steady.phase]) ?_, .mutates steady.clock calls steady.phase effect⟩
      intro since polling
      rw [steady.phase] at polling
      rw [polling] at calls
      cases calls
  · cases stepped

/-- Everything that an allowed step can do. -/
theorem step_spec {action : Action} (safe : Safe timeout s) (allowed : Allowed s action)
    (stepped : step timeout s action = some t) :
    Safe timeout t ∧ Stepped timeout s t action := by
  cases action with
  | tick elapsed =>
      simp only [step, Option.some.injEq] at stepped
      subst stepped
      obtain ⟨temps, inv, known⟩ := safe.inv
      refine ⟨⟨safe.stops, ⟨temps, ?_, known⟩, safe.owned, safe.room⟩,
        .ticks rfl rfl rfl rfl rfl rfl⟩
      exact inv.congr (Nat.le_add_right _ _) rfl rfl rfl rfl rfl rfl rfl inv.told
  | wait capacity =>
      cases phase : s.phase with
      | waiting =>
          have inv := safe.running (by simp [phase])
          rw [phase] at inv
          have polls : ∀ size, s.epoll.total_events ≤ size →
              t = { s with epoll := { s.epoll with size }, phase := .polling s.clock } →
              Safe timeout t ∧ Stepped timeout s t (.wait capacity) := by
            rintro size room rfl
            refine ⟨⟨by simp, ⟨_, ?_, fun _ => rfl⟩, (fun ev member => by cases member),
              fun _ _ => room⟩, .waits rfl rfl rfl rfl rfl rfl phase rfl⟩
            exact inv.congr (Nat.le_refl _) rfl rfl rfl rfl rfl rfl rfl inv.told
          simp only [step, phase] at stepped
          split at stepped
          · split at stepped
            · rename_i room
              exact polls capacity room (Option.some.inj stepped).symm
            · cases stepped
          · rename_i room
            exact polls s.epoll.size (by omega) (Option.some.inj stepped).symm
      | polling | dispatching | handling | running | expiring | timingOut | stopped =>
          simp [step, phase] at stepped
  | ready batch => exact ready_spec safe stepped
  | next => exact next_spec safe stepped
  | back => exact back_spec safe stepped
  | construct | add | remove | modify | refresh | incRef | decRef | close =>
      exact mutate_step safe allowed stepped

/-- A loop that has just been constructed, and the read end of its pipe. -/
def Init (pipe : Fd) (s : State) : Prop :=
  ∃ clock, s = { clock, reading := clock, epoll := { interest := [⟨pipe, EPOLLIN, none, none⟩] } }

theorem init_safe {pipe : Fd} (init : Init pipe s) : Safe timeout s := by
  obtain ⟨clock, rfl⟩ := init
  refine ⟨by simp, ⟨fun _ => 0, ?_, fun _ => rfl⟩, (fun ev member => by cases member), by simp⟩
  refine ⟨⟨?_, ?_, ?_, ?_, ?_⟩, ⟨[], Linked.Repr.empty (by simp), ?_, List.Pairwise.nil, rfl⟩,
    fun _ => rfl, fun _ => rfl, ?_, ?_, ?_⟩
  · rintro a k ⟨⟩
  · rintro a b k ⟨⟩
  · intro g member
    cases member
  · exact List.nodup_nil
  · intro k below
    exact absurd below (Nat.not_lt_zero k)
  · intro a
    refine ⟨(fun member => by cases member), ?_⟩
    rintro ⟨r, ⟨⟩⟩
  · rintro a r ⟨⟩
  · intro e member a data
    rw [List.mem_singleton.mp member] at data
    cases data
  · intro c member
    cases member

/-- The states of a loop whose steps are all `allowed`. -/
def Reachable (timeout : ℕ) (pipe : Fd) (allowed : State → Action → Prop) : State → Prop :=
  Runs.Reachable (Init pipe) (Runs.Moves (step timeout) allowed)

theorem Reachable.safe {pipe : Fd} {allowed : State → Action → Prop}
    (fine : ∀ s a, allowed s a → Allowed s a) (reach : Reachable timeout pipe allowed s) :
    Safe timeout s := by
  refine Runs.Reachable.invariant (I := Safe timeout) (fun _ => init_safe) ?_ reach
  rintro s t safe ⟨a, admitted, stepped⟩
  exact (step_spec safe (fine s a admitted) stepped).1

/-- Between a pass and the next batch `Loop` holds no reference. -/
def Phase.Idle : Phase → Prop
  | .waiting | .polling _ => True
  | _ => False

/-- What the kernel has for a handler. -/
def entry (fd : Fd) (a k : ℕ) : Interest := ⟨fd, EPOLLIN, some a, some k⟩

end Hcproxy.Loop
