import Hcproxy.ForwarderProgress

set_option autoImplicit false

namespace Hcproxy.Forwarder

open Exec (Holds)
open Threads

/-- No direction of any pair stalls while the events of `todo` are still to be dispatched, and a
socket that has not been given to the loop has room. -/
structure Lively (todo : List Event) (s : State World) : Prop where
  pairs : ∀ (i : ℕ) (p : Pair), s.pairs[i]? = some p → p.linked = true →
    Steady i s.world (s.ctx i p) ∧ ∀ x, (s.ctx i p).Flows False todo x
  fresh : ∀ i x, s.pairs.length ≤ i → (s.world.sock (i, x)).room = true

variable {i : ℕ} {w : World} {c d : Ctx World} {todo todo' : List Event} {s t : State World}

theorem Steady.rebase (steady : Steady i w c) : Steady i c.world c :=
  ⟨steady.id, fun _ _ => ⟨.refl _, rfl⟩, steady.masks, steady.ends, steady.capacity⟩

/-- A pair that is not touched itself. -/
theorem Steady.carried (steady : Steady i w c) {v : World}
    (arrived : ∀ x, (c.world.sock (i, x)).Arrived (v.sock (i, x))) :
    Steady i v { c with world := v } := by
  refine ⟨steady.id, fun _ _ => ⟨.refl _, rfl⟩, ?_, steady.ends, steady.capacity⟩
  intro x isOpen
  rw [(arrived x).mask]
  exact steady.masks x isOpen

theorem Ctx.Flows.carried {ran : Prop} {x : Side} (flows : c.Flows ran todo x)
    (steady : Steady i w c) {v : World}
    (arrived : ∀ x, (c.world.sock (i, x)).Arrived (v.sock (i, x)))
    (full : ∀ x, v.full (i, x) = c.world.full (i, x)) :
    Ctx.Flows ran todo { c with world := v } x := by
  have same := steady.id
  subst same
  refine ⟨?_, flows.draining.arrived (arrived x) (steady.maskOut x)⟩
  dsimp only
  rw [full]
  exact flows.filling.arrived (arrived x.other) (steady.maskIn x.other)

/-- A pair whose loop and clock are others. -/
theorem Ctx.Flows.loop {ran : Prop} {x : Side} (flows : c.Flows ran todo x) (l : EventLoop Sock)
    (now : ℕ) : Ctx.Flows ran todo { c with loop := l, clock := now } x :=
  ⟨flows.filling, flows.draining⟩

theorem Steady.loop (steady : Steady i w c) (l : EventLoop Sock) (now : ℕ) :
    Steady i w { c with loop := l, clock := now } :=
  ⟨steady.id, steady.others, steady.masks, steady.ends, steady.capacity⟩

/-- A method of the pair `i` has returned. -/
theorem Lively.left
    (others : ∀ (j : ℕ) (q : Pair), j ≠ i → s.pairs[j]? = some q → q.linked = true →
      Steady j s.world (s.ctx j q) ∧ ∀ x, (s.ctx j q).Flows False todo x)
    (fresh : ∀ j x, s.pairs.length ≤ j → (s.world.sock (j, x)).room = true)
    (inside : i < s.pairs.length) (id : d.id = i)
    (foreign : ∀ h, h.1 ≠ i →
      (s.world.sock h).Arrived (d.world.sock h) ∧ d.world.full h = s.world.full h)
    (own : d.pair.linked = true → Steady i s.world d ∧ ∀ x, d.Flows False todo' x)
    (out : ∀ j x, j ≠ i → dueOut todo (j, x) → dueOut todo' (j, x))
    (into : ∀ j x, j ≠ i → dueIn todo (j, x) → dueIn todo' (j, x)) (next : Phase) :
    Lively todo' ⟨d.loop, d.clock, d.world, s.pairs.set d.id d.pair, next⟩ := by
  refine ⟨?_, ?_⟩
  · intro j q found linked
    dsimp only at found
    rw [id, List.getElem?_set] at found
    split at found
    · rename_i same
      subst same
      cases found
      obtain ⟨steady, flows⟩ := own linked
      have here : State.ctx ⟨d.loop, d.clock, d.world, s.pairs.set d.id d.pair, next⟩ i d.pair =
          d := by
        rw [State.ctx, ← id]
      rw [here]
      exact ⟨steady.rebase, flows⟩
    · rename_i different
      obtain ⟨steady, flows⟩ := others j q (Ne.symm different) found linked
      have arrived : ∀ x, (s.world.sock (j, x)).Arrived (d.world.sock (j, x)) :=
        fun x => (foreign (j, x) (Ne.symm different)).1
      have full : ∀ x, d.world.full (j, x) = s.world.full (j, x) :=
        fun x => (foreign (j, x) (Ne.symm different)).2
      refine ⟨(steady.carried arrived).loop _ _, fun x => ?_⟩
      exact (((flows x).carried steady arrived full).loop _ _).mono (fun ran => ran)
        (out j x (Ne.symm different)) (into j x.other (Ne.symm different))
  · intro j x beyond
    dsimp only at beyond ⊢
    rw [List.length_set] at beyond
    exact (foreign (j, x) (by dsimp only; omega)).1.room (fresh j x beyond)

theorem Lively.of_arrived (lively : Lively todo s) (pairs : t.pairs = s.pairs)
    (arrived : s.world.Arrived t.world) : Lively todo t := by
  refine ⟨?_, ?_⟩
  · intro j q found linked
    rw [pairs] at found
    obtain ⟨steady, flows⟩ := lively.pairs j q found linked
    have socks : ∀ x, (s.world.sock (j, x)).Arrived (t.world.sock (j, x)) :=
      fun x => arrived.sock _
    have full : ∀ x, t.world.full (j, x) = s.world.full (j, x) := fun x => by rw [arrived.full]
    exact ⟨(steady.carried socks).loop _ _,
      fun x => ((flows x).carried steady socks full).loop _ _⟩
  · intro j x beyond
    rw [pairs] at beyond
    exact (arrived.sock _).room (lively.fresh j x beyond)

/-- What reporting some events does to a socket: the edges for them are not lost. -/
structure Socket.Reported (s t : Socket) (lostIn lostOut : Prop) : Prop where
  mask : t.mask = s.mask
  ready : t.ready = s.ready
  room : t.room = s.room
  nospace : t.nospace = s.nospace
  edgeIn : s.edgeIn = true → t.edgeIn = true ∨ lostIn
  edgeOut : s.edgeOut = true → t.edgeOut = true ∨ lostOut

theorem wait_reported (w : World) (batch : List Event) :
    (∀ h, (w.sock h).Reported ((edgeTriggered.wait w batch).sock h) (dueIn batch h)
      (dueOut batch h)) ∧ (edgeTriggered.wait w batch).full = w.full := by
  induction batch generalizing w with
  | nil => exact ⟨fun h => ⟨rfl, rfl, rfl, rfl, Or.inl, Or.inl⟩, rfl⟩
  | cons event rest ih =>
      have later : ∀ {h : Sock}, dueIn rest h → dueIn (event :: rest) h :=
        fun ⟨mask, member, bit⟩ => ⟨mask, List.mem_cons_of_mem _ member, bit⟩
      have laterOut : ∀ {h : Sock}, dueOut rest h → dueOut (event :: rest) h :=
        fun ⟨mask, member, bit⟩ => ⟨mask, List.mem_cons_of_mem _ member, bit⟩
      cases event with
      | popFunc =>
          obtain ⟨reported, full⟩ := ih w
          refine ⟨fun h => ?_, full⟩
          have after := reported h
          exact ⟨after.mask, after.ready, after.room, after.nospace,
            fun edge => (after.edgeIn edge).imp_right later,
            fun edge => (after.edgeOut edge).imp_right laterOut⟩
      | io j y mask =>
          obtain ⟨reported, full⟩ := ih (w.put (j, y) ((w.sock (j, y)).report mask))
          refine ⟨fun h => ?_, full⟩
          have after := reported h
          by_cases same : h = (j, y)
          · subst same
            rw [World.put_self] at after
            refine ⟨after.mask, after.ready, after.room, after.nospace, ?_, ?_⟩
            · intro edge
              cases bit : hasBits mask EPOLLIN with
              | true => exact Or.inr ⟨mask, List.mem_cons_self, bit⟩
              | false =>
                  exact (after.edgeIn (by simp [Socket.report, edge, bit])).imp_right later
            · intro edge
              cases bit : hasBits mask EPOLLOUT with
              | true => exact Or.inr ⟨mask, List.mem_cons_self, bit⟩
              | false =>
                  exact (after.edgeOut (by simp [Socket.report, edge, bit])).imp_right laterOut
          · have kept : (w.put (j, y) ((w.sock (j, y)).report mask)).sock h = w.sock h := by
              simp [World.put, same]
            rw [kept] at after
            exact ⟨after.mask, after.ready, after.room, after.nospace,
              fun edge => (after.edgeIn edge).imp_right later,
              fun edge => (after.edgeOut edge).imp_right laterOut⟩

/-- `epoll_wait` reports a batch: the edges are due instead of pending. -/
theorem Lively.waits (lively : Lively [] s) (batch : List Event) :
    Lively batch { s with
      world := edgeTriggered.wait s.world batch, phase := .dispatching batch } := by
  obtain ⟨reported, full⟩ := wait_reported s.world batch
  have nothing : ∀ {h : Sock}, ¬ dueIn [] h := fun ⟨_, member, _⟩ => List.not_mem_nil member
  have nothingOut : ∀ {h : Sock}, ¬ dueOut [] h := fun ⟨_, member, _⟩ => List.not_mem_nil member
  refine ⟨?_, fun j x beyond => ?_⟩
  · intro j q found linked
    obtain ⟨steady, flows⟩ := lively.pairs j q found linked
    refine ⟨⟨rfl, fun _ _ => ⟨.refl _, rfl⟩, ?_, steady.ends, steady.capacity⟩, fun x => ?_⟩
    · intro x isOpen
      exact (reported (j, x)).mask.trans (steady.masks x isOpen)
    · obtain ⟨filling, draining⟩ := flows x
      have into := reported (j, x)
      have source := reported (j, x.other)
      refine ⟨⟨?_, False.elim⟩, ⟨?_, draining.ends, False.elim⟩⟩
      · intro readable ready
        rcases filling.fills readable (source.ready.symm.trans ready) with (edge | due) | space
        · exact Or.inl (source.edgeIn edge)
        · exact absurd due nothing
        · refine Or.inr ⟨space.1, space.2.imp_right fun noSlot => ?_⟩
          exact (congrFun full _).trans noSlot
      · intro writable filled
        rcases draining.drains writable filled with ⟨noRoom, nospace⟩ | ⟨room, edge | due⟩
        · exact Or.inl ⟨into.room.trans noRoom, into.nospace.trans nospace⟩
        · exact Or.inr ⟨into.room.trans room, into.edgeOut edge⟩
        · exact absurd due nothingOut
  · exact (reported (j, x)).room.trans (lively.fresh j x beyond)

variable {p : Pair} {temps : Sock → ℕ} {opt : Options}

/-- A method of the pair `i`, run by the loop, that has returned. -/
theorem Lively.run (lively : Lively todo s) (found : s.pairs[i]? = some p)
    {m : Exec World PUnit} {next : Phase}
    (holds : Holds m anyStop
      (fun _ d => Steady i s.world d ∧ ∀ x, d.Flows False todo' x) (s.ctx i p))
    (out : ∀ j x, j ≠ i → dueOut todo (j, x) → dueOut todo' (j, x))
    (into : ∀ j x, j ≠ i → dueIn todo (j, x) → dueIn todo' (j, x))
    (running : ∀ why, (s.run i m next).phase ≠ .stopped why) :
    Lively todo' (s.run i m next) ∧ (s.run i m next).phase = next := by
  rw [State.run_eq found] at running ⊢
  cases result : m (s.ctx i p) with
  | ok a d =>
      obtain ⟨steady, flows⟩ := holds.ok result
      refine ⟨?_, rfl⟩
      refine Lively.left (fun j q _ foundQ => lively.pairs j q foundQ) lively.fresh ?_ steady.id
        steady.others (fun _ => ⟨steady, flows⟩) out into next
      exact (List.getElem?_eq_some_iff.mp found).1
  | error why d =>
      rw [result] at running
      exact absurd rfl (running why)

theorem Lively.holdAll (lively : Lively todo s) (sound : Sound temps s) (batch : List Event)
    (reported : ∀ ev ∈ batch, s.reports ev = true) : Lively todo (s.holdAll batch) := by
  induction batch generalizing s temps with
  | nil => exact lively
  | cons ev rest ih =>
      have reportedRest : ∀ ev ∈ rest, s.reports ev = true :=
        fun ev member => reported ev (List.mem_cons_of_mem _ member)
      cases ev with
      | popFunc => exact ih lively sound reportedRest
      | io i x mask =>
          obtain ⟨p, found, intact, alive⟩ := sound.reported (reported _ List.mem_cons_self)
          obtain ⟨_, d, ran, good, events⟩ :=
            (hold_spec (x := x) (sound.good found intact) alive).returns
          obtain ⟨left, soundT⟩ := sound.returned found ran good s.phase
          have quiet := (hold_quiet (s.ctx i p) x).ok ran
          have id : d.id = i := quiet.id
          have inside := (List.getElem?_eq_some_iff.mp found).1
          rw [State.holdAll]
          refine ih ?_ soundT fun ev member =>
            (State.reports_of_events found (by rw [left]) events ev).trans (reportedRest ev member)
          have kept := Lively.left (fun j q _ foundQ => lively.pairs j q foundQ) lively.fresh
            inside id (fun h _ => ⟨quiet.world.sock h, by rw [quiet.world.full]; rfl⟩)
            (fun _ => ?_) (fun _ _ _ due => due) (fun _ _ _ due => due) s.phase
          · rw [id] at kept
            rw [left]
            exact kept
          · obtain ⟨steady, flows⟩ := lively.pairs i p found intact.linked
            exact ⟨steady.quiet quiet, fun x => (flows x).quiet steady quiet⟩

/-- What is due for other pairs after an event of the pair `i` was taken. -/
theorem dueOut.later {z : Side} {events : Events} {rest : List Event} {j : ℕ} {x : Side}
    (due : dueOut (.io i z events :: rest) (j, x)) (other : j ≠ i) : dueOut rest (j, x) := by
  obtain ⟨mask, member, bit⟩ := due
  rcases List.mem_cons.mp member with same | member
  · cases same
    exact absurd rfl other
  · exact ⟨mask, member, bit⟩

theorem dueIn.later {z : Side} {events : Events} {rest : List Event} {j : ℕ} {x : Side}
    (due : dueIn (.io i z events :: rest) (j, x)) (other : j ≠ i) : dueIn rest (j, x) := by
  obtain ⟨mask, member, bit⟩ := due
  rcases List.mem_cons.mp member with same | member
  · cases same
    exact absurd rfl other
  · exact ⟨mask, member, bit⟩

/-- Events that are not for a link are due for none. -/
theorem Lively.popped {rest : List Event} (lively : Lively (.popFunc :: rest) s) :
    Lively rest s := by
  refine ⟨fun j q found linked => ?_, lively.fresh⟩
  obtain ⟨steady, flows⟩ := lively.pairs j q found linked
  refine ⟨steady, fun x => (flows x).mono (fun ran => ran) ?_ ?_⟩
  · rintro ⟨mask, member, bit⟩
    rcases List.mem_cons.mp member with same | member
    · cases same
    · exact ⟨mask, member, bit⟩
  · rintro ⟨mask, member, bit⟩
    rcases List.mem_cons.mp member with same | member
    · cases same
    · exact ⟨mask, member, bit⟩

theorem Lively.runNew (lively : Lively todo s) (opt : Options) (next : Phase)
    (running : ∀ why, (s.runNew edgeTriggered opt next).phase ≠ .stopped why) :
    Lively todo (s.runNew edgeTriggered opt next) := by
  have made := @new_flows ⟨s.pairs.length, {}, s.loop, s.clock, s.world⟩ todo opt s.world rfl rfl
    fun x => lively.fresh _ x (Nat.le_refl _)
  rw [State.runNew] at running ⊢
  cases result : new edgeTriggered opt
      (⟨s.pairs.length, {}, s.loop, s.clock, s.world⟩ : Ctx World) with
  | ok a d =>
      obtain ⟨id, others, flows⟩ := made.ok result
      dsimp only at id others flows
      have still : ∀ (j : ℕ) (x : Side), j ≠ s.pairs.length → dueOut todo (j, x) →
          dueOut todo (j, x) := fun _ _ _ due => due
      refine Lively.left (s := { s with pairs := s.pairs ++ [({} : Pair)] }) ?_ ?_
        (by simp) id others flows still (fun _ _ _ due => due) next
      · intro j q different foundQ linked
        rcases of_getElem?_snoc foundQ with ⟨_, before⟩ | ⟨same, _⟩
        · exact lively.pairs j q before linked
        · exact absurd same different
      · intro j x beyond
        dsimp only at beyond
        rw [List.length_append] at beyond
        exact lively.fresh j x (by omega)
  | error why d =>
      rw [result] at running
      exact absurd rfl (running why)

/-- What the handling of an event leaves when the link that it is for was registered. -/
theorem Lively.dispatch {z : Side} {events : Events} {rest : List Event} (safe : Safe temps s)
    (phase : s.phase = .dispatching (.io i z events :: rest))
    (lively : Lively (.io i z events :: rest) s) (fuel : ℕ) (leftFirst : Bool) :
    ∃ p, s.pairs[i]? = some p ∧
      Holds (Forwarder.dispatch edgeTriggered fuel z events leftFirst) anyStop
        (fun _ d => Steady i s.world d ∧
          ∀ x, d.Flows ((p.link z).event_loop = true ∧ runs events z x = true) rest x)
        (s.ctx i p) := by
  have positive : 0 < temps (i, z) := by
    rw [safe.refs (by simp [phase]) (i, z), phase]
    exact List.count_pos_iff.mpr (by simp [Event.sock])
  obtain ⟨p, found, intact⟩ := safe.toSound.found positive
  obtain ⟨steady, flows⟩ := lively.pairs i p found intact.linked
  exact ⟨p, found, dispatch_flows fuel z events leftFirst steady (intact.owned z).registered flows⟩

theorem step_lively (safe : Safe temps s)
    (lively : (∀ why, s.phase ≠ .stopped why) → Lively s.phase.todo s) {a : Action World}
    (arrives : Arrives s a) (moved : step edgeTriggered opt s a = some t)
    (running : ∀ why, t.phase ≠ .stopped why) : Lively t.phase.todo t := by
  have before : ∀ {phase : Phase}, s.phase = phase → (∀ why, phase ≠ .stopped why) →
      Lively phase.todo s := by
    rintro _ rfl running
    exact lively running
  cases moved_of_step edgeTriggered moved with
  | outside world =>
      obtain ⟨arrivals, script, rfl⟩ := arrives
      have arrived := World.arriveAll_arrived s.world arrivals
      exact (lively running).of_arrived rfl ⟨arrived.sock, arrived.full⟩
  | @wait batch phase reported =>
      have sound : Sound temps { s with
          world := edgeTriggered.wait s.world batch, phase := .dispatching batch } :=
        safe.toSound.of_same rfl rfl (Nat.le_refl _)
      obtain ⟨_, left⟩ := sound.holdAll batch reported
      rw [left]
      exact ((before phase (by simp)).waits batch).holdAll sound batch reported
  | dispatched phase => exact (before phase (by simp)).of_arrived rfl (.refl _)
  | @popFunc _ _ rest phase =>
      have after := Lively.runNew (before phase (by simp)).popped opt _ running
      rw [(safe.runNew edgeTriggered opt (.dispatching rest)).2]
      exact after
  | @io fuel leftFirst i z events rest phase =>
      have before := before phase (by simp)
      obtain ⟨p, found, holds⟩ := Lively.dispatch safe phase before fuel leftFirst
      obtain ⟨after, left⟩ := before.run found
        (holds.mono (fun _ _ stopped => stopped) fun _ d post =>
          ⟨post.1, fun x => (post.2 x).mono False.elim (fun due => due) fun due => due⟩)
        (fun _ _ different due => due.later different)
        (fun _ _ different due => due.later different) running
      rw [left]
      exact after
  | idle phase => exact (before phase (by simp)).of_arrived rfl (.refl _)
  | early phase => exact (before phase (by simp)).of_arrived rfl (elapse_arrived s.world)
  | @expires h deadline others phase head =>
      have before : Lively [] s := before phase (by simp)
      have later : Lively [] { s with
          clock := s.clock + (edgeTriggered.elapse s.world).1
          world := (edgeTriggered.elapse s.world).2 } :=
        before.of_arrived rfl (elapse_arrived s.world)
      have member : (h, deadline) ∈ s.loop.expire := head ▸ List.mem_cons_self
      obtain ⟨p, found, intact, _⟩ := safe.toSound.expiring member
      obtain ⟨steady, _⟩ := later.pairs h.1 p found intact.linked
      obtain ⟨after, left⟩ := later.run found (expire_flows h.2 steady)
        (fun _ _ _ due => due) (fun _ _ _ due => due) running
      rw [left]
      exact after

theorem lively_init (initial : InitEdges s) : Lively s.phase.todo s := by
  obtain ⟨⟨timeout, clock, world, rfl⟩, room⟩ := initial
  refine ⟨?_, fun _ _ _ => room _⟩
  intro i p found
  simp at found

theorem lively_of_reachable (reach : ReachableEdges opt s) :
    (∃ temps, Safe temps s) ∧ ((∀ why, s.phase ≠ .stopped why) → Lively s.phase.todo s) := by
  refine Runs.Reachable.invariant (I := fun s => (∃ temps, Safe temps s) ∧
    ((∀ why, s.phase ≠ .stopped why) → Lively s.phase.todo s)) ?_ ?_ reach
  · exact fun s initial => ⟨⟨_, safe_init initial.1⟩, fun _ => lively_init initial⟩
  · rintro s t ⟨⟨temps, safe⟩, lively⟩ ⟨a, arrives, moved⟩
    exact ⟨step_safe edgeTriggered safe moved, step_lively safe lively arrives moved⟩

/-- What an attempt to go on in a direction came to: it was refused. -/
structure Exhausted (w : World) (i : ℕ) (p : Pair) (x : Side) : Prop where
  sink : (p.link x).writable = true → 0 < (p.link x).out.size → (w.sock (i, x)).deniedOut = true
  source : (p.link x.other).readable = true → (p.link x).out.size < (p.link x).out.capacity →
    (w.sock (i, x.other)).deniedIn = true

/-- A direction that can make progress has an edge that will be handled, and the handling of an
event goes on in the directions that it runs until the sockets refuse. -/
theorem no_stall (reach : ReachableEdges opt s) (running : ∀ why, s.phase ≠ .stopped why)
    (found : s.pairs[i]? = some p) (linked : p.linked = true) :
    (∀ x, CanProgress s.world i p x → s.pendingOut (i, x) ∨ s.pendingIn (i, x.other)) ∧
      ∀ fuel leftFirst z events rest, s.phase = .dispatching (.io i z events :: rest) →
        (p.link z).event_loop = true →
        ∀ t, step edgeTriggered opt s (.dispatch fuel leftFirst) = some t →
        (∀ why, t.phase ≠ .stopped why) → ∀ q, t.pairs[i]? = some q →
        ∀ x, runs events z x = true → Exhausted t.world i q x := by
  obtain ⟨⟨temps, safe⟩, between⟩ := lively_of_reachable reach
  have lively := between running
  refine ⟨?_, ?_⟩
  · intro x progress
    obtain ⟨_, flows⟩ := lively.pairs i p found linked
    obtain ⟨filling, draining⟩ := flows x
    rcases progress with ⟨readable, ready, accepts⟩ | ⟨writable, holds, room⟩ |
      ⟨ended, writable, drained⟩
    · rcases filling.fills readable ready with pending | ⟨holds, stuck⟩
      · exact Or.inr pending
      · rcases accepts with empty | ⟨space, slot⟩
        · exact absurd empty (Nat.ne_of_gt holds)
        · rcases stuck with full | noSlot
          · exact absurd full (Nat.ne_of_lt space)
          · exact absurd (slot.symm.trans noSlot) (by simp)
    · rcases draining.drains writable holds with ⟨noRoom, _⟩ | ⟨_, pending⟩
      · exact absurd (room.symm.trans noRoom) (by simp)
      · exact Or.inl pending
    · exact absurd drained (Nat.ne_of_gt (draining.ends ended writable))
  · intro fuel leftFirst z events rest phase registered t moved still q foundQ x ran
    rw [phase] at lively
    obtain ⟨p', found', holds⟩ := Lively.dispatch safe phase lively fuel leftFirst
    cases found.symm.trans found'
    simp only [step, phase, Option.some.injEq, State.run_eq found] at moved
    subst moved
    cases result : dispatch edgeTriggered fuel z events leftFirst (s.ctx i p) with
    | ok a d =>
        rw [result] at foundQ
        obtain ⟨steady, flows⟩ := holds.ok result
        have id := steady.id
        have inside := (List.getElem?_eq_some_iff.mp found).1
        simp only [State.leave, id, List.getElem?_set_self inside, Option.some.injEq] at foundQ
        subst foundQ
        obtain ⟨filling, draining⟩ := flows x
        rw [id] at filling draining
        exact ⟨draining.wrote ⟨registered, ran⟩, filling.read ⟨registered, ran⟩⟩
    | error why d =>
        rw [result] at still
        exact absurd rfl (still why)

/-- A loop that makes a pair and gets an event of the client, in a world where a send buffer takes
one byte. -/
def started : State World :=
  (Runs.replay (step edgeTriggered onePage)
    { loop := { timeout := sixty }, clock := 0
      world := { script := List.replicate 20 {} } }
    [.wait [.popFunc], .dispatch 0 true, .dispatch 0 true, .expire,
      .wait [.io 0 .client EPOLLOUT]]).get (by decide +kernel)

theorem started_reachable : ReachableEdges onePage started :=
  Runs.replay_reachable_of _
    (by simp [Arrives]) (.start ⟨⟨_, _, _, rfl⟩, fun _ => rfl⟩) (Option.some_get _).symm

def startedPair : Pair := started.pairs[0]?.get (by decide +kernel)

def refused : State World := (step edgeTriggered onePage started (.dispatch 5 true)).get
  (by decide +kernel)

def refusedPair : Pair := refused.pairs[0]?.get (by decide +kernel)

theorem started_phase : started.phase = .dispatching [.io 0 .client EPOLLOUT] := by
  decide +kernel

theorem refused_phase : refused.phase = .dispatching [] := by decide +kernel

theorem no_stall_started :
    (CanProgress started.world 0 startedPair .client ∧
      (started.pendingOut (0, .client) ∨ started.pendingIn (0, .server))) ∧
    ((refusedPair.link .client).out.size = 18 ∧
      Exhausted refused.world 0 refusedPair .client) := by
  have holds := no_stall (i := 0) (p := startedPair) started_reachable
    (by simp [started_phase])
    (Option.some_get _).symm (by decide +kernel)
  have progress : CanProgress started.world 0 startedPair .client :=
    Or.inr (Or.inl ⟨by decide +kernel, by decide +kernel, by decide +kernel⟩)
  refine ⟨⟨progress, holds.1 .client progress⟩, by decide +kernel, ?_⟩
  exact holds.2 5 true .client EPOLLOUT [] started_phase (by decide +kernel) refused
    (Option.some_get _).symm
    (by simp [refused_phase]) refusedPair
    (Option.some_get _).symm .client (by decide +kernel)

end Hcproxy.Forwarder
