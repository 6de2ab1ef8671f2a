import Hcproxy.ForwarderStalls

set_option autoImplicit false

namespace Hcproxy.Forwarder

open Exec (Holds)

variable {c d : Ctx World} {i : ℕ} {w : World} {R ran : Prop} {todo : List Event} {x z : Side}

/-- An event of the link `z` runs the direction to `x`. -/
def runs (mask : Events) (z x : Side) : Bool :=
  hasBits mask (if x = z then EPOLLOUT else EPOLLIN)

theorem Ctx.Flows.mono {ran' : Prop} {todo' : List Event} (flows : c.Flows ran todo x)
    (hasRun : ran' → ran) (out : dueOut todo (c.id, x) → dueOut todo' (c.id, x))
    (into : dueIn todo (c.id, x.other) → dueIn todo' (c.id, x.other)) :
    c.Flows ran' todo' x :=
  ⟨flows.filling.mono hasRun into, flows.draining.mono hasRun out⟩

/-- A direction that an event names is run, and the other one is left alone. -/
theorem side_flows (fuel : ℕ) (bit : Bool) (x : Side) (steady : Steady i w c)
    (idle : bit = false → c.Flows False todo x) (other : R → c.Flows ran todo x.other) :
    Holds (if bit then forwardFromOther edgeTriggered fuel x else pure false) anyStop
      (fun _ d => Steady i w d ∧ d.Flows (bit = true) todo x ∧ (R → d.Flows ran todo x.other))
      c := by
  split
  · rename_i named
    refine (forward_flows (R := R) x fuel false ⟨steady, other⟩).mono
      (fun _ _ stopped => stopped) fun _ d after => ?_
    exact ⟨after.1.steady, (after.2 todo).mono (fun _ => trivial) id id, after.1.flows⟩
  · rename_i notNamed
    rw [Bool.not_eq_true] at notNamed
    exact ⟨steady, (idle notNamed).mono (fun named => by rw [notNamed] at named; cases named) id id,
      other⟩

/-- The direction from a link that got an event. -/
theorem into_flows (fuel : ℕ) (bit : Bool) (z : Side) (steady : Steady i w c)
    (idle : bit = false → c.Flows False todo z.other) (behind : R → c.Flows ran todo z) :
    Holds (if bit then do forwardFromOther edgeTriggered fuel (← other z) else pure false) anyStop
      (fun _ d => Steady i w d ∧ d.Flows (bit = true) todo z.other ∧ (R → d.Flows ran todo z))
      c := by
  have back : R → c.Flows ran todo z.other.other := by rwa [Side.other_other]
  have direction := side_flows fuel bit z.other steady idle back
  rw [Side.other_other] at direction
  split
  · rename_i named
    rw [if_pos named] at direction
    simp only [Exec.holds_bind]
    exact partial_other direction
  · rename_i notNamed
    rwa [if_neg notNamed] at direction

theorem process_flows (fuel : ℕ) (z : Side) (events : Events) (leftFirst : Bool)
    (steady : Steady i w c) (idle : ∀ x, runs events z x = false → c.Flows False todo x) :
    Holds (process edgeTriggered fuel z events leftFirst) anyStop
      (fun _ d => Steady i w d ∧ ∀ x, d.Flows (runs events z x = true) todo x) c := by
  have idleOut : hasBits events EPOLLOUT = false → c.Flows False todo z :=
    fun notNamed => idle z (by simpa [runs] using notNamed)
  have idleIn : hasBits events EPOLLIN = false → c.Flows False todo z.other :=
    fun notNamed => idle z.other (by simpa [runs] using notNamed)
  have finish : ∀ {d : Ctx World}, Steady i w d →
      d.Flows (hasBits events EPOLLOUT = true) todo z →
      d.Flows (hasBits events EPOLLIN = true) todo z.other →
      Steady i w d ∧ ∀ x, d.Flows (runs events z x = true) todo x := by
    refine fun steadyD out into => ⟨steadyD, (Side.forall_iff z).mpr ⟨?_, ?_⟩⟩
    · simpa [runs] using out
    · simpa [runs] using into
  simp only [process]
  split
  · simp only [Exec.holds_bind, Exec.holds_pure]
    exact (terminate_flows z steady).mono (fun _ _ stopped => stopped)
      fun _ d after => ⟨after.1, fun x => after.2 _ _ x⟩
  · split
    · refine (side_flows fuel _ z steady idleOut idleIn).bind ?_
      rintro _ d ⟨steadyD, out, into⟩
      refine (into_flows (R := True) fuel _ z steadyD into fun _ => out).bind ?_
      rintro _ e ⟨steadyE, into, out⟩
      exact finish steadyE (out trivial) into
    · refine (into_flows fuel _ z steady idleIn idleOut).bind ?_
      rintro _ d ⟨steadyD, into, out⟩
      refine (side_flows (R := True) fuel _ z steadyD out fun _ => into).bind ?_
      rintro _ e ⟨steadyE, out, into⟩
      exact finish steadyE out (into trivial)

/-- What is left to dispatch after an event still covers the directions that it does not run. -/
theorem Ctx.Flows.dispatched {events : Events} {rest : List Event}
    (flows : c.Flows ran (.io c.id z events :: rest) x) (notRun : runs events z x = false) :
    c.Flows ran rest x := by
  refine flows.mono (fun run => run) ?_ ?_
  · rintro ⟨mask, member, bit⟩
    rcases List.mem_cons.mp member with same | member
    · cases same
      simp [runs, bit] at notRun
    · exact ⟨mask, member, bit⟩
  · rintro ⟨mask, member, bit⟩
    rcases List.mem_cons.mp member with same | member
    · cases same
      simp [runs, bit] at notRun
    · exact ⟨mask, member, bit⟩

/-- An event of a link that has been closed does not matter. -/
theorem Ctx.Flows.skipped {events : Events} {rest : List Event}
    (flows : c.Flows ran (.io c.id z events :: rest) x)
    (closed : (c.pair.link z).isOpen = false) : c.Flows ran rest x := by
  obtain ⟨readable, writable⟩ := Bool.or_eq_false_iff.mp closed
  refine ⟨?_, ?_⟩
  · by_cases same : x.other = z
    · exact .closed (by rw [same]; exact readable)
    · refine flows.filling.mono (fun run => run) ?_
      rintro ⟨mask, member, bit⟩
      rcases List.mem_cons.mp member with event | member
      · cases event
        exact absurd rfl same
      · exact ⟨mask, member, bit⟩
  · by_cases same : x = z
    · exact .closed (by rw [same]; exact writable)
    · refine flows.draining.mono (fun run => run) ?_
      rintro ⟨mask, member, bit⟩
      rcases List.mem_cons.mp member with event | member
      · cases event
        exact absurd rfl same
      · exact ⟨mask, member, bit⟩

theorem onEvent_flows (fuel : ℕ) (z : Side) (events : Events) (leftFirst : Bool)
    (steady : Steady i w c) (idle : ∀ x, runs events z x = false → c.Flows False todo x) :
    Holds (onEvent edgeTriggered fuel z events leftFirst) anyStop
      (fun _ d => Steady i w d ∧ ∀ x, d.Flows (runs events z x = true) todo x) c := by
  have settle : ∀ {d e : Ctx World}, d.Quiet e →
      (Steady i w d ∧ ∀ x, d.Flows (runs events z x = true) todo x) →
      Steady i w e ∧ ∀ x, e.Flows (runs events z x = true) todo x :=
    fun quiet after => ⟨after.1.quiet quiet, fun x => (after.2 x).quiet after.1 quiet⟩
  have finish : ∀ {d : Ctx World}, (Steady i w d ∧ ∀ x, d.Flows (runs events z x = true) todo x) →
      Holds (do release (← other z)) anyStop
        (fun _ e => Steady i w e ∧ ∀ x, e.Flows (runs events z x = true) todo x) d := by
    intro d after
    simp only [Exec.holds_bind]
    exact partial_other ((release_quiet d z.other).mono (fun _ _ stopped => stopped)
      fun _ e quiet => settle quiet after)
  simp only [onEvent, Exec.holds_bind]
  refine partial_other ((hold_quiet c z.other).mono (fun _ _ stopped => stopped) ?_)
  intro _ d quiet
  refine (process_flows fuel z events leftFirst (steady.quiet quiet)
    fun x notRun => (idle x notRun).quiet steady quiet).mono (fun _ _ stopped => stopped) ?_
  intro active e after
  cases active with
  | false => simpa using finish after
  | true =>
      simp only [↓reduceIte, Exec.holds_bind]
      refine (refresh_quiet e z).mono (fun _ _ stopped => stopped) fun _ g quietG => ?_
      refine partial_other ((refresh_quiet g z.other).mono (fun _ _ stopped => stopped) ?_)
      intro _ h quietH
      simpa using finish (settle quietH (settle quietG after))

/-- Whether the link was registered or not, no direction stalls once its event was dispatched. -/
theorem dispatch_flows (fuel : ℕ) (z : Side) (events : Events) (leftFirst : Bool)
    (steady : Steady i w c) (registered : (c.pair.link z).event_loop = (c.pair.link z).isOpen)
    (flows : ∀ x, c.Flows False (.io c.id z events :: todo) x) :
    Holds (dispatch edgeTriggered fuel z events leftFirst) anyStop
      (fun _ d => Steady i w d ∧
        ∀ x, d.Flows ((c.pair.link z).event_loop = true ∧ runs events z x = true) todo x) c := by
  have finish : ∀ {ran : Side → Prop} {d : Ctx World}, Steady i w d →
      (∀ x, d.Flows (ran x) todo x) → Holds (release z) anyStop
        (fun _ e => Steady i w e ∧ ∀ x, e.Flows (ran x) todo x) d :=
    fun steadyD after => (release_quiet _ z).mono (fun _ _ stopped => stopped)
      fun _ e quiet => ⟨steadyD.quiet quiet, fun x => (after x).quiet steadyD quiet⟩
  simp only [dispatch, Exec.holds_bind]
  refine partial_get ?_
  split
  · rename_i isRegistered
    simp only [Exec.holds_bind]
    refine (onEvent_flows fuel z events leftFirst steady
      fun x notRun => (flows x).dispatched notRun).mono (fun _ _ stopped => stopped) ?_
    rintro _ d ⟨steadyD, after⟩
    exact finish steadyD fun x => (after x).mono (fun both => both.2) id id
  · rename_i notRegistered
    rw [Bool.not_eq_true] at notRegistered
    refine finish steady fun x =>
      ((flows x).skipped (registered.symm.trans notRegistered)).mono ?_ id id
    rintro ⟨impossible, _⟩
    rw [notRegistered] at impossible
    cases impossible

/-- A pair that has expired is closed. -/
theorem expire_flows (z : Side) (steady : Steady i w c) :
    Holds (expire edgeTriggered z) anyStop
      (fun _ d => Steady i w d ∧ ∀ x, d.Flows False todo x) c := by
  have settle : ∀ {d e : Ctx World}, d.Quiet e →
      (Steady i w d ∧ ∀ ran todo x, d.Flows ran todo x) →
      Steady i w e ∧ ∀ ran todo x, e.Flows ran todo x :=
    fun quiet after => ⟨after.1.quiet quiet, fun _ _ x => (after.2 _ _ x).quiet after.1 quiet⟩
  have finish : ∀ {d : Ctx World}, (Steady i w d ∧ ∀ ran todo x, d.Flows ran todo x) →
      Holds (release z) anyStop (fun _ e => Steady i w e ∧ ∀ x, e.Flows False todo x) d := by
    refine fun after => (release_quiet _ z).mono (fun _ _ stopped => stopped) fun _ e quiet => ?_
    obtain ⟨steadyE, flows⟩ := settle quiet after
    exact ⟨steadyE, fun x => flows _ _ x⟩
  simp only [expire, onTimeout, Exec.holds_bind]
  refine partial_get (partial_check fun _ => ?_)
  refine (hold_quiet c z).mono (fun _ _ stopped => stopped) fun _ d quietD => partial_other ?_
  refine (hold_quiet d z.other).mono (fun _ _ stopped => stopped) fun _ e quietE => ?_
  refine (terminate_flows z (steady.quiet (quietD.trans quietE))).mono
    (fun _ _ stopped => stopped) fun _ g after => partial_other ?_
  refine (release_quiet g z.other).mono (fun _ _ stopped => stopped) fun _ h quietH => partial_get ?_
  split
  · simp only [Exec.holds_bind]
    refine (refreshLoop_quiet h z).mono (fun _ _ stopped => stopped) fun _ j quietJ => ?_
    exact finish (settle (quietH.trans quietJ) after)
  · exact finish (settle quietH after)

/-- A socket that has been registered for everything while it had room. -/
structure Socket.Armed (s : Socket) : Prop where
  mask : s.mask = Forwarder.mask true true
  room : s.room = true
  edgeOut : s.edgeOut = true
  edgeIn : s.ready = true → s.edgeIn = true

theorem Socket.register_armed {s : Socket} (room : s.room = true) :
    (s.register (Forwarder.mask true true)).Armed := by
  refine ⟨rfl, room, ?_, ?_⟩
  · simp [register, room, hasBits_mask_out]
  · intro ready
    change s.ready = true at ready
    simp [register, ready, hasBits_mask_in]

theorem Socket.Armed.arrived {s t : Socket} (armed : s.Armed) (arrived : s.Arrived t) :
    t.Armed := by
  refine ⟨arrived.mask.trans armed.mask, arrived.room armed.room, arrived.edgeOut armed.edgeOut, ?_⟩
  intro ready
  rcases arrived.news ready with before | unregistered | edge
  · exact arrived.edgeIn (armed.edgeIn before)
  · rw [armed.mask, hasBits_mask_in] at unregistered
    cases unregistered
  · exact edge

/-- A link that has a pipe and has not been closed. -/
structure Link.Started (l : Link) : Prop where
  readable : l.readable = true
  writable : l.writable = true
  capacity : 0 < l.out.capacity

theorem Link.Started.same {l m : Link} (started : l.Started) (same : l.Same m) : m.Started := by
  refine ⟨same.readable.trans started.readable, same.writable.trans started.writable, ?_⟩
  rw [same.capacity]
  exact started.capacity

theorem Link.Started.set {p : Pair} {l : Link} (started : ∀ y, (p.link y).Started)
    (here : l.Started) : ∀ y, ((p.set x l).link y).Started := by
  refine (Side.forall_iff x).mpr ⟨?_, ?_⟩
  · rw [Pair.link_set]
    exact here
  · rw [Pair.link_other_set]
    exact started x.other

theorem steady_of_armed (id : c.id = i)
    (others : ∀ h, h.1 ≠ i → (w.sock h).Arrived (c.world.sock h) ∧ c.world.full h = w.full h)
    (started : ∀ x, (c.pair.link x).Started) (armed : ∀ x, (c.world.sock (i, x)).Armed) :
    Steady i w c ∧ ∀ x, c.Flows False todo x := by
  subst id
  refine ⟨⟨rfl, others, ?_, ?_, fun x => (started x).capacity⟩, fun x => ⟨⟨?_, ?_⟩, ⟨?_, ?_, ?_⟩⟩⟩
  · intro x _
    rw [(armed x).mask, (started x).readable, (started x).writable]
  · intro x closed
    rw [(started x.other).readable] at closed
    cases closed
  · exact fun _ ready => Or.inl (Or.inl ((armed x.other).edgeIn ready))
  · exact False.elim
  · exact fun _ _ => Or.inr ⟨(armed x).room, Or.inl (armed x).edgeOut⟩
  · intro closed
    rw [(started x.other).readable] at closed
    cases closed
  · exact False.elim

theorem pipe_arrived (w : World) (size : ℕ) : w.Arrived (edgeTriggered.pipe w size).2 := by
  simp only [edgeTriggered]
  split
  · exact .refl w
  · rename_i next
    exact World.turn_arrived next

theorem partial_init {post : Bool → Ctx World → Prop} (size_bytes : BufferSize)
    (fails : ∀ u, c.world.Arrived u → post false { c with world := u })
    (succeeds : ∀ u capacity, c.world.Arrived u → page ≤ capacity → post true { c with
      world := u, pair := c.pair.set x ((c.pair.link x).piped capacity) }) :
    Holds (init edgeTriggered x size_bytes) anyStop post c := by
  simp only [init, Exec.holds_bind]
  refine partial_get ?_
  simp only [holds_ctx]
  have arrived := pipe_arrived c.world size_bytes.1
  cases result : edgeTriggered.pipe c.world size_bytes.1 with
  | mk answer u =>
      rw [result] at arrived
      cases answer with
      | none => exact fails u arrived
      | some capacity => exact succeeds u capacity.1 arrived capacity.2.2

/-- What adding a handler to the loop does. -/
structure Ctx.Adds (c : Ctx World) (x : Side) (events : Events) (d : Ctx World) : Prop where
  id : d.id = c.id
  links : ∀ y, (c.pair.link y).Same (d.pair.link y)
  world : ∃ u, c.world.Arrived u ∧ d.world = u.put (c.id, x) ((u.sock (c.id, x)).register events)

theorem add_adds (c : Ctx World) (x : Side) (events : Events) :
    Holds (add edgeTriggered x events) anyStop (fun _ d => c.Adds x events d) c := by
  simp only [add, now, Exec.holds_bind]
  refine partial_get ?_
  simp only [holds_ctx, holds_setCtx, Exec.holds_pure]
  split
  · exact trivial
  · simp only [Exec.holds_bind, holds_setCtx, holds_call]
    refine ⟨rfl, Pair.set_same ⟨rfl, rfl, rfl, rfl, fun same => same⟩, _, ?_, rfl⟩
    exact (elapse_arrived c.world).trans (World.pass_arrived _)

theorem write_started (c : Ctx World) (x : Side) (data : Bytes)
    (started : ∀ y, (c.pair.link y).Started) :
    Holds (write x data) anyStop (fun _ d => d.id = c.id ∧ d.world = c.world ∧
      ∀ y, (d.pair.link y).Started) c := by
  simp only [write, Exec.holds_bind]
  refine partial_get (partial_check fun _ => partial_check fun _ => partial_check fun _ => ?_)
  simp only [holds_put]
  refine partial_check fun _ => ⟨rfl, rfl, Link.Started.set started ?_⟩
  exact ⟨(started x).readable, (started x).writable, (started x).capacity⟩

/-- Giving up a handler does not link it to another one. -/
theorem discard_apart (c : Ctx World) (x : Side) :
    Holds (discard edgeTriggered x) anyStop (fun _ d => d.id = c.id ∧
      d.pair.linked = c.pair.linked ∧ c.world.Arrived d.world) c := by
  simp only [discard, delete, Exec.holds_bind, holds_call]
  refine partial_get ?_
  simp only [holds_put]
  refine partial_get (partial_check fun _ => partial_check fun _ => partial_check fun _ => ?_)
  exact ⟨rfl, by simp, c.world.pass_arrived⟩

/-- The links that `New` makes get the edges that they need: nothing has been written to the
sockets, so both have room. -/
theorem new_flows (opt : Options) (w : World) (made : c.pair = {}) (world : w = c.world)
    (fresh : ∀ x, (w.sock (c.id, x)).room = true) :
    Holds (new edgeTriggered opt) anyStop (fun _ d => d.id = c.id ∧
      (∀ h, h.1 ≠ c.id → (w.sock h).Arrived (d.world.sock h) ∧ d.world.full h = w.full h) ∧
      (d.pair.linked = true → Steady c.id w d ∧ ∀ x, d.Flows False todo x)) c := by
  obtain ⟨id, pair, loop, clock, here⟩ := c
  subst made
  subst world
  dsimp only at fresh ⊢
  have giveUp : ∀ {d : Ctx World}, d.id = id → d.pair.linked = false → w.Arrived d.world →
      Holds (do discard edgeTriggered .client; discard edgeTriggered .server) anyStop
        (fun _ d => d.id = id ∧
          (∀ h, h.1 ≠ id → (w.sock h).Arrived (d.world.sock h) ∧ d.world.full h = w.full h) ∧
          (d.pair.linked = true → Steady id w d ∧ ∀ x, d.Flows False todo x)) d := by
    intro d same unlinked arrived
    rw [Exec.holds_bind]
    refine (discard_apart d .client).mono (fun _ _ stopped => stopped) ?_
    rintro _ e ⟨sameE, linkedE, arrivedE⟩
    refine (discard_apart e .server).mono (fun _ _ stopped => stopped) ?_
    rintro _ g ⟨sameG, linkedG, arrivedG⟩
    have total := arrived.trans (arrivedE.trans arrivedG)
    refine ⟨sameG.trans (sameE.trans same), fun h _ => ⟨total.sock h, by rw [total.full]⟩, ?_⟩
    intro linked
    rw [linkedG, linkedE, unlinked] at linked
    cases linked
  simp only [new, Exec.holds_bind]
  refine partial_init _ (fun u arrived => ?_) fun u a arrived roomy => ?_
  · simp only [Bool.false_eq_true, ↓reduceIte, Exec.holds_pure]
    exact giveUp rfl rfl arrived
  simp only [↓reduceIte]
  refine partial_init _ (fun v later => ?_) fun v b later spacious => ?_
  · simp only [Bool.false_eq_true, ↓reduceIte]
    exact giveUp rfl rfl (arrived.trans later)
  simp only [↓reduceIte, Exec.holds_bind, holds_ctx, holds_setCtx]
  have piped : ∀ capacity, page ≤ capacity → (Link.piped {} capacity).Started :=
    fun capacity enough => ⟨rfl, rfl, Nat.lt_of_lt_of_le (by decide) enough⟩
  refine (incRef_quiet _ .client).mono (fun _ _ stopped => stopped) fun _ d quietD => ?_
  refine (incRef_quiet d .server).mono (fun _ _ stopped => stopped) fun _ e quietE => ?_
  have quiet := quietD.trans quietE
  have started : ∀ y, (e.pair.link y).Started := by
    intro y
    refine Link.Started.same ?_ (quiet.links y)
    cases y
    · exact piped a roomy
    · exact piped b spacious
  have same : e.id = id := quiet.id
  have arrivedE : w.Arrived e.world := arrived.trans (later.trans quiet.world)
  refine (add_adds e .client _).mono (fun _ _ stopped => stopped) fun _ f addsC => ?_
  refine (add_adds f .server _).mono (fun _ _ stopped => stopped) fun _ g addsS => ?_
  obtain ⟨u, arrivedU, worldF⟩ := addsC.world
  obtain ⟨v, arrivedV, worldG⟩ := addsS.world
  have sameF : f.id = id := addsC.id.trans same
  rw [same] at worldF
  rw [sameF] at worldG
  rw [worldF] at arrivedV
  have arrivedC := arrivedE.trans arrivedU
  have clientArmed : (v.sock (id, .client)).Armed := by
    refine Socket.Armed.arrived ?_ (arrivedV.sock (id, .client))
    rw [World.put_self]
    exact Socket.register_armed ((arrivedC.sock _).room (fresh .client))
  have serverRoom : (v.sock (id, .server)).room = true := by
    refine (arrivedV.sock (id, .server)).room ?_
    have kept := World.put_other u id .client
      ((u.sock (id, .client)).register (EPOLLIN ||| EPOLLOUT ||| EPOLLET))
    exact (congrArg Socket.room kept).trans ((arrivedC.sock _).room (fresh .server))
  have armed : ∀ x, (g.world.sock (id, x)).Armed := by
    intro x
    rw [worldG]
    cases x
    · have kept := World.put_other v id .server
        ((v.sock (id, .server)).register (EPOLLIN ||| EPOLLOUT ||| EPOLLET))
      exact (congrArg Socket.Armed kept).mpr clientArmed
    · rw [World.put_self]
      exact Socket.register_armed serverRoom
  have startedG : ∀ y, (g.pair.link y).Started :=
    fun y => ((started y).same (addsC.links y)).same (addsS.links y)
  have others : ∀ h, h.1 ≠ id →
      (w.sock h).Arrived (g.world.sock h) ∧ g.world.full h = w.full h := by
    intro h foreign
    have before := arrivedV.sock h
    rw [World.put_foreign _ _ _ _ foreign] at before
    rw [worldG, World.put_foreign _ _ _ _ foreign, World.put_full, arrivedV.full,
      World.put_full, arrivedC.full]
    exact ⟨(arrivedC.sock h).trans before, rfl⟩
  refine (write_started g .client kResponse startedG).mono (fun _ _ stopped => stopped) ?_
  rintro _ h ⟨sameH, worldH, startedH⟩
  rw [← worldH] at armed others
  have sameId : h.id = id := sameH.trans (addsS.id.trans sameF)
  exact ⟨sameId, others, fun _ => steady_of_armed sameId others startedH armed⟩

end Hcproxy.Forwarder
