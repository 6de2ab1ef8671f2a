import Hcproxy.ForwarderCounts
import Hcproxy.ForwarderFlows

set_option autoImplicit false

namespace Hcproxy.Forwarder

open Exec (Holds Relates)

/-- Nothing is said of an execution that does not return. -/
def anyStop (_ : Stop) (_ : Ctx World) : Prop := True

section Rules

variable {α : Type} {c : Ctx World}

theorem partial_get {post : Link → Ctx World → Prop} {x : Side} (holds : post (c.pair.link x) c) :
    Holds (get x) anyStop post c := by
  simp only [get, Exec.holds_bind, holds_ctx]
  split
  · exact trivial
  · exact holds

theorem partial_other {post : Side → Ctx World → Prop} {x : Side} (holds : post x.other c) :
    Holds (other x) anyStop post c := by
  simp only [other, Exec.holds_bind]
  refine partial_get ?_
  simp only [holds_ctx]
  split
  · exact holds
  · exact trivial

theorem partial_check {post : PUnit → Ctx World → Prop} {condition : Prop} [Decidable condition]
    (holds : condition → post ⟨⟩ c) : Holds (check condition) anyStop post c := by
  unfold check
  split
  · rename_i true_
    exact holds true_
  · exact trivial

end Rules

variable {c : Ctx World} {x : Side}

/-- Writing a link that has not changed in what matters. -/
theorem Ctx.Quiet.put {l : Link} (same : (c.pair.link x).Same l) :
    c.Quiet { c with pair := c.pair.set x l } := by
  refine ⟨rfl, (Side.forall_iff x).mpr ⟨?_, ?_⟩, .refl _⟩
  · rw [Pair.link_set]
    exact same
  · rw [Pair.link_other_set]
    exact .refl _

theorem Counts.quiet {c d : Ctx World} (counts : Counts c d) : c.Quiet d := by
  refine ⟨counts.id, fun x => ?_, ?_⟩
  · have link := counts.links x
    exact ⟨link.readable, link.writable, link.size, link.capacity, link.writeEnd⟩
  · rw [counts.world]
    exact .refl _

/-- A method that only counts references. -/
theorem quiet_of_counts {α : Type} {m : Exec World α} (counts : Relates Counts m c) :
    Holds m anyStop (fun _ d => c.Quiet d) c :=
  Exec.Holds.mono counts (fun _ _ _ => trivial) fun _ _ => Counts.quiet

theorem incRef_quiet (c : Ctx World) (x : Side) :
    Holds (incRef x) anyStop (fun _ d => c.Quiet d) c := quiet_of_counts (counts_incRef x c)

theorem decRef_quiet (c : Ctx World) (x : Side) :
    Holds (decRef x) anyStop (fun _ d => c.Quiet d) c := quiet_of_counts (counts_decRef x c)

theorem hold_quiet (c : Ctx World) (x : Side) :
    Holds (hold x) anyStop (fun _ d => c.Quiet d) c := quiet_of_counts (counts_hold x c)

theorem release_quiet (c : Ctx World) (x : Side) :
    Holds (release x) anyStop (fun _ d => c.Quiet d) c := quiet_of_counts (counts_release x c)

theorem elapse_arrived (w : World) : w.Arrived (edgeTriggered.elapse w).2 := by
  simp only [edgeTriggered]
  split
  · exact .refl w
  · rename_i next
    exact World.turn_arrived next

theorem refreshLoop_quiet (c : Ctx World) (x : Side) :
    Holds (refreshLoop edgeTriggered x) anyStop (fun _ d => c.Quiet d) c := by
  simp only [refreshLoop, now, Exec.holds_bind]
  refine partial_get ?_
  simp only [holds_ctx, holds_setCtx, Exec.holds_pure]
  split
  · exact trivial
  · exact trivial
  · exact ⟨rfl, fun _ => .refl _, elapse_arrived _⟩

theorem refresh_quiet (c : Ctx World) (x : Side) :
    Holds (refresh edgeTriggered x) anyStop (fun _ d => c.Quiet d) c := by
  simp only [refresh, Exec.holds_bind]
  refine partial_get ?_
  split
  · exact refreshLoop_quiet c x
  · exact .refl c

/-- What closing the link `x` does. -/
structure Ctx.Closes (c : Ctx World) (x : Side) (d : Ctx World) : Prop where
  id : d.id = c.id
  closed : (d.pair.link x).readable = false ∧ (d.pair.link x).writable = false
  size : (d.pair.link x).out.size = (c.pair.link x).out.size
  capacity : (d.pair.link x).out.capacity = (c.pair.link x).out.capacity
  other : (c.pair.link x.other).Same (d.pair.link x.other)
  world : ∀ h, h ≠ (c.id, x) → (c.world.sock h).Arrived (d.world.sock h)
  full : d.world.full = c.world.full

theorem Ctx.Closes.quiet {d e : Ctx World} (closes : c.Closes x d) (quiet : d.Quiet e) :
    c.Closes x e := by
  have here := quiet.links x
  refine ⟨quiet.id.trans closes.id, ?_, here.size.trans closes.size,
    here.capacity.trans closes.capacity, closes.other.trans (quiet.links _), ?_,
    quiet.world.full.trans closes.full⟩
  · rw [here.readable, here.writable]
    exact closes.closed
  · exact fun h different => (closes.world h different).trans (quiet.world.sock h)

theorem call_arrived (w : World) (h : Sock) (syscall : Call) (g : Sock) (different : g ≠ h) :
    (w.sock g).Arrived ((edgeTriggered.call w h syscall).sock g) := by
  have arrived := w.pass_arrived.sock g
  simp only [edgeTriggered]
  cases syscall <;> simp only [World.put, if_neg different] <;> exact arrived

theorem call_full (w : World) (h : Sock) (syscall : Call) :
    (edgeTriggered.call w h syscall).full = w.full := by
  simp only [edgeTriggered]
  cases syscall <;> exact w.pass_arrived.full

theorem Ctx.Closes.call {d : Ctx World} (closes : c.Closes x d) (syscall : Call) {p : Pair}
    (same : ∀ y, (d.pair.link y).Same (p.link y)) (loop : EventLoop Sock) :
    c.Closes x { d with
      pair := p, loop, world := edgeTriggered.call d.world (d.id, x) syscall } := by
  have here := same x
  refine ⟨closes.id, ?_, here.size.trans closes.size, here.capacity.trans closes.capacity,
    closes.other.trans (same _), ?_, (call_full _ _ _).trans closes.full⟩
  · rw [here.readable, here.writable]
    exact closes.closed
  · intro h different
    rw [closes.id]
    exact (closes.world h different).trans (call_arrived _ _ _ _ different)

theorem Pair.set_same {p : Pair} {x : Side} {l : Link} (same : (p.link x).Same l) (y : Side) :
    (p.link y).Same ((p.set x l).link y) := by
  revert y
  refine (Side.forall_iff x).mpr ⟨?_, ?_⟩
  · rw [Pair.link_set]
    exact same
  · rw [Pair.link_other_set]
    exact .refl _

theorem close_closes (c : Ctx World) (x : Side) :
    Holds (close edgeTriggered x) anyStop (fun _ d => c.Closes x d) c := by
  simp only [close, Exec.holds_bind]
  refine partial_get ?_
  split
  · simp only [Exec.holds_bind, holds_put]
    refine partial_other ((decRef_quiet _ x.other).mono (fun _ _ stopped => stopped) ?_)
    intro _ d quiet
    have closing : c.Closes x d := by
      refine Ctx.Closes.quiet ?_ quiet
      refine ⟨rfl, ?_, ?_, ?_, ?_, fun _ _ => .refl _, rfl⟩
      · simp
      · simp
      · simp
      · rw [Pair.link_other_set]
        exact .refl _
    simp only [remove, Exec.holds_bind]
    refine partial_get ?_
    simp only [holds_ctx]
    split
    · exact trivial
    · simp only [Exec.holds_bind, holds_setCtx, holds_call]
      refine (decRef_quiet _ x).mono (fun _ _ stopped => stopped) ?_
      intro _ e quietE
      refine partial_get ?_
      refine Ctx.Closes.call (.quiet (closing.call _ ?_ _) quietE) _ ?_ _
      · exact Pair.set_same ⟨rfl, rfl, rfl, rfl, id⟩
      · exact Pair.set_same ⟨rfl, rfl, rfl, rfl, id⟩
  · rename_i closed
    rw [Bool.not_eq_true, Bool.or_eq_false_iff] at closed
    exact ⟨rfl, closed, rfl, rfl, .refl _, fun _ _ => .refl _, rfl⟩

variable {i : ℕ} {w : World} {R ran : Prop} {todo : List Event}

/-- When both links are closed there is nothing left that could stall. -/
theorem terminate_flows (x : Side) (steady : Steady i w c) :
    Holds (terminate edgeTriggered x) anyStop
      (fun _ d => Steady i w d ∧ ∀ ran todo y, d.Flows ran todo y) c := by
  simp only [terminate, Exec.holds_bind, holds_ctx, holds_setCtx]
  refine (close_closes _ x).mono (fun _ _ stopped => stopped) fun _ d first => partial_other ?_
  refine (close_closes d x.other).mono (fun _ _ stopped => stopped) fun _ e second => ?_
  have here := second.other
  rw [Side.other_other] at here
  have closed : ∀ y, (e.pair.link y).readable = false ∧ (e.pair.link y).writable = false := by
    refine (Side.forall_iff x).mpr ⟨?_, second.closed⟩
    rw [here.readable, here.writable]
    exact first.closed
  have id : e.id = c.id := second.id.trans first.id
  refine ⟨⟨id.trans steady.id, ?_, ?_, ?_, ?_⟩, fun ran todo y => ⟨.closed (closed _).1,
    .closed (closed _).2⟩⟩
  · intro h foreign
    obtain ⟨arrived, full⟩ := steady.others h foreign
    rw [← steady.id] at foreign
    refine ⟨arrived.trans ((first.world h ?_).trans (second.world h ?_)), ?_⟩
    · exact fun same => foreign (by rw [same])
    · rw [first.id]
      exact fun same => foreign (by rw [same])
    · rw [second.full, first.full]
      exact full
  · intro y isOpen
    simp [Link.isOpen, closed y] at isOpen
  · intro y _ writable
    rw [(closed y).2] at writable
    cases writable
  · refine (Side.forall_iff x).mpr ⟨?_, ?_⟩
    · rw [here.capacity, first.capacity]
      exact steady.capacity x
    · rw [second.capacity, first.other.capacity]
      exact steady.capacity x.other

theorem partial_modify {post : PUnit → Ctx World → Prop} (events : Events)
    (holds : ∀ eh, post ⟨⟩ { c with
      pair := c.pair.set x { c.pair.link x with toEventHandler := eh }
      world := edgeTriggered.call c.world (c.id, x) (.epollModify events) }) :
    Holds (modify edgeTriggered x events) anyStop post c := by
  simp only [modify, Exec.holds_bind]
  refine partial_get ?_
  simp only [holds_ctx]
  split
  · exact trivial
  · simp only [Exec.holds_bind, holds_put, holds_call]
    exact holds _

theorem modify_sock (w : World) (h : Sock) (events : Events) :
    (edgeTriggered.call w h (.epollModify events)).sock h = (w.pass.sock h).register events := by
  simp [edgeTriggered]

/-- A link that stays open in one direction, and is registered for that. -/
theorem Steady.modified (steady : Steady i w c) {l : Link}
    (capacity : l.out.capacity = (c.pair.link x).out.capacity)
    (ends : ∀ y, ((c.pair.set x l).link y.other).readable = false →
      ((c.pair.set x l).link y).writable = true →
      ((c.pair.set x l).link y).out.writeEnd = false) :
    Steady i w { c with
      pair := c.pair.set x l
      world := edgeTriggered.call c.world (c.id, x)
        (.epollModify (mask l.readable l.writable)) } := by
  have same := steady.id
  subst same
  refine ⟨rfl, ?_, ?_, ends, ?_⟩
  · intro h foreign
    obtain ⟨arrived, full⟩ := steady.others h foreign
    have different : h ≠ (c.id, x) := fun same => foreign (congrArg Prod.fst same)
    refine ⟨arrived.trans
      (call_arrived c.world _ (.epollModify (mask l.readable l.writable)) h different), ?_⟩
    rw [call_full]
    exact full
  · refine (Side.forall_iff x).mpr ⟨?_, ?_⟩
    · intro _
      rw [Pair.link_set, modify_sock]
      rfl
    · intro isOpen
      rw [Pair.link_other_set] at isOpen ⊢
      rw [(call_arrived _ _ _ _ (by simp)).mask]
      exact steady.masks x.other isOpen
  · refine (Side.forall_iff x).mpr ⟨?_, ?_⟩
    · rw [Pair.link_set, capacity]
      exact steady.capacity x
    · rw [Pair.link_other_set]
      exact steady.capacity x.other

/-- A link has been closed, and nothing more will come from it. -/
theorem Steady.closes {d : Ctx World} (steady : Steady i w c) (closes : c.Closes x d)
    (ended : (c.pair.link x.other).writable = true →
      (c.pair.link x.other).out.writeEnd = false) : Steady i w d := by
  have same := steady.id
  subst same
  have other := closes.other
  refine ⟨closes.id, ?_, ?_, ?_, ?_⟩
  · intro h foreign
    obtain ⟨arrived, full⟩ := steady.others h foreign
    have different : h ≠ (c.id, x) := fun same => foreign (congrArg Prod.fst same)
    exact ⟨arrived.trans (closes.world h different), by rw [closes.full, full]⟩
  · refine (Side.forall_iff x).mpr ⟨?_, ?_⟩
    · intro isOpen
      simp [Link.isOpen, closes.closed] at isOpen
    · intro isOpen
      rw [(closes.world _ (by simp)).mask, other.readable, other.writable]
      apply steady.masks
      rw [Link.isOpen, ← other.readable, ← other.writable]
      exact isOpen
  · refine (Side.forall_iff x).mpr ⟨?_, ?_⟩
    · intro _ writable
      rw [closes.closed.2] at writable
      cases writable
    · intro _ writable
      rw [other.writable] at writable
      exact other.writeEnd (ended writable)
  · refine (Side.forall_iff x).mpr ⟨?_, ?_⟩
    · rw [closes.capacity]
      exact steady.capacity x
    · rw [other.capacity]
      exact steady.capacity x.other

theorem shutdownRead_arrived {w : World} {h : Sock}
    (mask : hasBits (w.sock h).mask EPOLLIN = false) :
    w.Arrived (edgeTriggered.call w h .shutdownRead) := by
  have arrived := w.pass_arrived
  refine arrived.trans (World.put_arrived ?_)
  refine ⟨rfl, fun _ => rfl, fun _ => Or.inr (Or.inl ?_), id, id, id, Or.inl, fun _ => rfl, rfl, rfl⟩
  rw [(arrived.sock h).mask]
  exact mask

theorem closeForReading_flows (steady : Steady i w c)
    (ended : (c.pair.link x.other).out.writeEnd = false) (flows : R → c.Flows ran todo x) :
    Holds (closeForReading edgeTriggered x) anyStop
      (fun _ d => Steady i w d ∧ (R → d.Flows ran todo x)) c := by
  simp only [closeForReading, Exec.holds_bind]
  refine partial_get (partial_check fun readable => ?_)
  split
  · rename_i writable
    simp only [Exec.holds_bind, holds_put]
    refine partial_modify _ fun eh => ?_
    simp only [holds_call, Pair.link_set, Pair.set_set]
    have after : Steady i w { c with
        pair := c.pair.set x { c.pair.link x with toEventHandler := eh, readable := false }
        world := edgeTriggered.call c.world (c.id, x)
          (.epollModify (mask false (c.pair.link x).writable)) } := by
      refine steady.modified rfl ((Side.forall_iff x).mpr ⟨?_, ?_⟩)
      · intro closed
        rw [Pair.link_other_set] at closed
        rw [Pair.link_set]
        exact steady.ends x closed
      · intro _ _
        rw [Pair.link_other_set]
        exact ended
    rw [writable] at after
    have quiet : Ctx.Quiet { c with
        pair := c.pair.set x { c.pair.link x with toEventHandler := eh, readable := false }
        world := edgeTriggered.call c.world (c.id, x) (.epollModify (mask false true)) }
        { c with
          pair := c.pair.set x { c.pair.link x with toEventHandler := eh, readable := false }
          world := edgeTriggered.call (edgeTriggered.call c.world (c.id, x)
            (.epollModify (mask false true))) (c.id, x) .shutdownRead } := by
      refine ⟨rfl, fun _ => .refl _, shutdownRead_arrived ?_⟩
      rw [modify_sock]
      change hasBits (mask false true) EPOLLIN = false
      decide
    refine ⟨after.quiet quiet, fun run => Ctx.Flows.quiet ?_ after quiet⟩
    have before := flows run
    refine ⟨?_, ?_⟩
    · simp only [Pair.link_set, Pair.link_other_set, call_full]
      refine (before.filling.arrived (call_arrived _ _ _ _ (by simp)) (steady.maskIn _)).congr
        rfl rfl rfl
    · simp only [Pair.link_set, Pair.link_other_set, modify_sock]
      refine ((before.draining.arrived (c.world.pass_arrived.sock _)
        (steady.maskOut _)).register (hasBits_mask_out false)).congr rfl rfl rfl
  · rename_i notWritable
    rw [Bool.not_eq_true] at notWritable
    refine (close_closes c x).mono (fun _ _ stopped => stopped) fun _ d closes => ?_
    refine ⟨steady.closes closes fun _ => ended, fun run => ?_⟩
    have before := flows run
    refine ⟨?_, .closed closes.closed.2⟩
    rw [closes.id, closes.full]
    exact (before.filling.arrived (closes.world _ (by simp)) (steady.maskIn _)).congr
      closes.size closes.capacity closes.other.readable

theorem shutdownWrite_arrived (w : World) (h : Sock) :
    w.Arrived (edgeTriggered.call w h .shutdownWrite) := w.pass_arrived

theorem closeForWriting_flows (steady : Steady i w c) (flows : R → c.Flows ran todo x.other) :
    Holds (closeForWriting edgeTriggered x) anyStop
      (fun _ d => Steady i w d ∧ (R → d.Flows ran todo x.other)) c := by
  simp only [closeForWriting, Exec.holds_bind]
  refine partial_get (partial_check fun writable => ?_)
  simp only [holds_put]
  refine partial_get ?_
  have marked : c.Quiet { c with pair := c.pair.set x { c.pair.link x with finished := true } } :=
    .put ⟨rfl, rfl, rfl, rfl, id⟩
  simp only [Pair.link_set]
  split
  · rename_i readable
    simp only [Exec.holds_bind, holds_put, Pair.set_set]
    refine partial_modify _ fun eh => ?_
    simp only [holds_call, Pair.link_set, Pair.set_set]
    have after : Steady i w { c with
        pair := c.pair.set x
          { c.pair.link x with toEventHandler := eh, finished := true, writable := false }
        world := edgeTriggered.call c.world (c.id, x)
          (.epollModify (mask (c.pair.link x).readable false)) } := by
      refine steady.modified rfl ((Side.forall_iff x).mpr ⟨?_, ?_⟩)
      · intro _ impossible
        rw [Pair.link_set] at impossible
        cases impossible
      · intro closed
        rw [Side.other_other, Pair.link_set, readable] at closed
        cases closed
    rw [readable] at after
    have quiet : Ctx.Quiet { c with
        pair := c.pair.set x
          { c.pair.link x with toEventHandler := eh, finished := true, writable := false }
        world := edgeTriggered.call c.world (c.id, x) (.epollModify (mask true false)) }
        { c with
          pair := c.pair.set x
            { c.pair.link x with toEventHandler := eh, finished := true, writable := false }
          world := edgeTriggered.call (edgeTriggered.call c.world (c.id, x)
            (.epollModify (mask true false))) (c.id, x) .shutdownWrite } :=
      ⟨rfl, fun _ => .refl _, shutdownWrite_arrived _ (c.id, x)⟩
    refine ⟨after.quiet quiet, fun run => Ctx.Flows.quiet ?_ after quiet⟩
    have before := flows run
    refine ⟨?_, ?_⟩
    · have filling := before.filling
      rw [Side.other_other] at filling
      simp only [Side.other_other, Pair.link_set, Pair.link_other_set, modify_sock, call_full]
      exact ((filling.arrived (c.world.pass_arrived.sock (c.id, x)) (steady.maskIn _)).register
        (hasBits_mask_in false)).congr rfl rfl rfl
    · have draining := before.draining
      rw [Side.other_other] at draining
      simp only [Side.other_other, Pair.link_set, Pair.link_other_set]
      exact (draining.arrived (call_arrived c.world (c.id, x) (.epollModify (mask true false))
        (c.id, x.other) (by simp)) (steady.maskOut _)).congr rfl rfl rfl
  · rename_i notReadable
    rw [Bool.not_eq_true] at notReadable
    refine (close_closes _ x).mono (fun _ _ stopped => stopped) fun _ d closes => ?_
    have steadyM := steady.quiet marked
    refine ⟨steadyM.closes closes ?_, fun run => ?_⟩
    · exact steadyM.ends x.other (by simpa using notReadable)
    · have before := (flows run).quiet steady marked
      have draining := before.draining
      refine ⟨.closed (by rw [Side.other_other]; exact closes.closed.1), ?_⟩
      rw [Side.other_other] at draining ⊢
      rw [closes.id]
      refine (draining.arrived (closes.world _ (by simp)) (steadyM.maskOut _)).congr
        closes.other.size closes.other.writable ?_
      rw [closes.closed.1]
      simpa using notReadable.symm

theorem Ctx.quiet_world {u : World} (arrived : c.world.Arrived u) :
    c.Quiet { c with world := u } :=
  ⟨rfl, fun _ => .refl _, arrived⟩

/-- What comes of an attempt to read. -/
structure Ctx.Fills (c : Ctx World) (x : Side) (status : IoStatus) (d : Ctx World) : Prop where
  moves : ∃ u, c.world.Arrived u ∧ Ctx.Moves { c with world := u } x d
  noOp : status = .noOp → Filling True False (d.pair.link x) (d.pair.link x.other)
    (d.world.sock (d.id, x.other)) (d.world.full (d.id, x))
  eof : status = .eof → (d.pair.link x).out.writeEnd = false

/-- What comes of an attempt to write. -/
structure Ctx.Drains (c : Ctx World) (x : Side) (status : IoStatus) (d : Ctx World) : Prop where
  moves : ∃ u, c.world.Arrived u ∧ Ctx.Moves { c with world := u } x d ∧
    d.world.sock (c.id, x.other) = u.sock (c.id, x.other) ∧
    (status = .noOp → (d.pair.link x).out.size = (c.pair.link x).out.size ∧
      d.world.full (c.id, x) = u.full (c.id, x))
  noOp : status = .noOp →
    (0 < (d.pair.link x).out.size → (d.world.sock (d.id, x)).room = false ∧
      (d.world.sock (d.id, x)).nospace = true ∧ (d.world.sock (d.id, x)).deniedOut = true) ∧
    ((d.pair.link x).out.size = 0 → (d.pair.link x).out.writeEnd = true)

/-- What moving bytes through the pipe of a link leaves alone. -/
structure Link.Moved (l m : Link) : Prop where
  readable : m.readable = l.readable
  writable : m.writable = l.writable
  writeEnd : l.out.writeEnd = false → m.out.writeEnd = false
  capacity : m.out.capacity = l.out.capacity

theorem Link.Moved.refl (l : Link) : l.Moved l := ⟨rfl, rfl, id, rfl⟩

theorem Ctx.Moves.of_socks {u v : World} {p : Pair}
    (here : (c.pair.link x).Moved (p.link x))
    (there : (c.pair.link x.other).Same (p.link x.other))
    (others : ∀ h, h.1 ≠ c.id → v.sock h = u.sock h)
    (sink : (u.sock (c.id, x)).InSame (v.sock (c.id, x)))
    (source : (u.sock (c.id, x.other)).OutSame (v.sock (c.id, x.other)))
    (full : ∀ h, h ≠ (c.id, x) → v.full h = u.full h) :
    Ctx.Moves { c with world := u } x { c with pair := p, world := v } := by
  refine ⟨rfl, (Side.forall_iff x).mpr ⟨⟨here.readable, here.writable⟩,
    ⟨there.readable, there.writable⟩⟩, (Side.forall_iff x).mpr ⟨here.writeEnd, there.writeEnd⟩,
    (Side.forall_iff x).mpr ⟨here.capacity, there.capacity⟩, there.size, sink, source,
    full _ (by simp), ?_⟩
  exact fun h foreign => ⟨others h foreign, full h fun same => foreign (congrArg Prod.fst same)⟩

/-- What reading from a socket into a pipe can do, once something may have arrived. -/
inductive SplicedIn (u : World) (h : Sock) (used : ℕ) {room : ℕ} : SpliceIn room → World → Prop
  | error : SplicedIn u h used .error u
  | again (refused : (u.sock h).ready = false ∨ 0 < used ∧ u.full (h.1, h.2.other) = true) :
    SplicedIn u h used .again (u.put h { u.sock h with deniedIn := true })
  | eof : SplicedIn u h used .eof (u.put h { u.sock h with deniedIn := false })
  | data (bytes : Bytes) (more : bytes ≠ []) (fits : bytes.length ≤ room) (rest full : Bool) :
    SplicedIn u h used (.data bytes more fits)
      ((u.put h { u.sock h with ready := rest, deniedIn := false }).fill (h.1, h.2.other) full)

theorem splice_in_cases {w v : World} {h : Sock} {used room : ℕ} {answer : SpliceIn room}
    (result : edgeTriggered.splice_in w h used room = some (answer, v)) :
    ∃ u, w.Arrived u ∧ SplicedIn u h used answer v := by
  obtain ⟨⟨t, u⟩, next, spliced⟩ := Option.map_eq_some_iff.mp result
  refine ⟨u, World.turn_arrived next, ?_⟩
  dsimp only at spliced
  split at spliced
  · cases spliced
    exact .error
  split at spliced
  · rename_i refused
    cases spliced
    exact .again refused
  split at spliced
  · cases spliced
    exact .eof
  split at spliced
  · cases spliced
    exact .data _ _ _ _ _
  · cases spliced
    exact .error

theorem writeFrom_fills (x : Side) (capacity : 0 < (c.pair.link x).out.capacity) :
    Holds (writeFrom edgeTriggered x) anyStop (fun status d => c.Fills x status d) c := by
  simp only [writeFrom, Exec.holds_bind]
  refine partial_get (partial_get (partial_check fun writeEnd => partial_check fun bounded => ?_))
  split
  · rename_i whole
    refine ⟨⟨c.world, .refl _, .refl c x⟩,
      fun _ => ⟨fun _ _ => Or.inr ⟨?_, Or.inl whole⟩, ?_⟩, by simp⟩
    · omega
    · intro _ _ space
      omega
  · simp only [Exec.holds_bind, holds_ctx]
    cases answered : edgeTriggered.splice_in c.world (c.id, x.other) (c.pair.link x).out.size
      ((c.pair.link x).out.capacity - (c.pair.link x).out.size) with
    | none => exact trivial
    | some result =>
        obtain ⟨answer, v⟩ := result
        obtain ⟨u, arrived, spliced⟩ := splice_in_cases answered
        simp only [Exec.holds_bind, holds_setCtx]
        cases spliced with
        | error =>
            simp only [Exec.holds_bind, holds_put, Exec.holds_pure]
            refine ⟨⟨v, arrived, ?_⟩, by simp, by simp⟩
            refine .of_socks ?_ ?_ (fun _ _ => rfl) ⟨rfl, rfl, rfl, rfl⟩
              ⟨rfl, rfl, rfl, rfl, rfl⟩ fun _ _ => rfl
            · rw [Pair.link_set]
              exact ⟨rfl, rfl, fun _ => rfl, rfl⟩
            · rw [Pair.link_other_set]
              exact .refl _
        | again refused =>
            simp only [Exec.holds_pure]
            refine ⟨⟨u, arrived, ?_⟩, fun _ => ⟨?_, ?_⟩, by simp⟩
            · refine .of_socks (.refl _) (.refl _) (fun _ => World.put_foreign u _ _ _) ?_ ?_
                fun _ _ => rfl
              · rw [World.put_other']
                exact ⟨rfl, rfl, rfl, rfl⟩
              · rw [World.put_self]
                exact ⟨rfl, rfl, rfl, rfl, rfl⟩
            · intro _ ready
              rw [World.put_self] at ready
              rcases refused with nothing | ⟨some, full⟩
              · exact absurd (nothing.symm.trans ready) Bool.false_ne_true
              · rw [Side.other_other] at full
                exact Or.inr ⟨some, Or.inr full⟩
            · intro _ _ _
              rw [World.put_self]
        | eof =>
            simp only [Exec.holds_bind, holds_put, Exec.holds_pure]
            refine ⟨⟨u, arrived, ?_⟩, by simp, fun _ => ?_⟩
            · refine .of_socks ?_ ?_ (fun _ => World.put_foreign u _ _ _) ?_ ?_ fun _ _ => rfl
              · rw [Pair.link_set_other, Pair.link_set]
                exact ⟨rfl, rfl, fun _ => rfl, rfl⟩
              · rw [Pair.link_set]
                exact ⟨rfl, rfl, rfl, rfl, id⟩
              · rw [World.put_other']
                exact ⟨rfl, rfl, rfl, rfl⟩
              · rw [World.put_self]
                exact ⟨rfl, rfl, rfl, rfl, rfl⟩
            · rw [Pair.link_set_other, Pair.link_set]
              rfl
        | data bytes more fits rest full =>
            simp only [Exec.holds_bind, holds_put]
            refine partial_check fun _ => ?_
            simp only [Exec.holds_pure]
            refine ⟨⟨u, arrived, ?_⟩, by simp, by simp⟩
            refine .of_socks ?_ ?_ (fun _ => World.put_foreign u _ _ _) ?_ ?_ ?_
            · rw [Pair.link_set_other, Pair.link_set]
              exact ⟨rfl, rfl, id, rfl⟩
            · rw [Pair.link_set]
              exact ⟨rfl, rfl, rfl, rfl, id⟩
            · rw [World.fill_sock, World.put_other']
              exact ⟨rfl, rfl, rfl, rfl⟩
            · rw [World.fill_sock, World.put_self]
              exact ⟨rfl, rfl, rfl, rfl, rfl⟩
            · intro h different
              rw [Side.other_other]
              simp [World.fill, different]

/-- What writing to a socket can do, once something may have arrived. -/
inductive SplicedOut (u : World) (h : Sock) {size : ℕ} : SpliceOut size → World → Prop
  | error (wiped : Bool) : SplicedOut u h (.error wiped) u
  | again (wiped : Bool) (noRoom : (u.sock h).room = false) :
    SplicedOut u h (.again wiped) (u.put h { u.sock h with nospace := true, deniedOut := true })
  | sent (n : ℕ) (more : 0 < n) (fits : n ≤ size) (rest full : Bool) :
    SplicedOut u h (.sent n more fits)
      ((u.put h { u.sock h with room := rest, deniedOut := false }).fill h full)

theorem splice_out_cases {w v : World} {h : Sock} {size : ℕ} {answer : SpliceOut size}
    (result : edgeTriggered.splice_out w h size = some (answer, v)) :
    ∃ u, w.Arrived u ∧ SplicedOut u h answer v := by
  obtain ⟨⟨t, u⟩, next, spliced⟩ := Option.map_eq_some_iff.mp result
  refine ⟨u, World.turn_arrived next, ?_⟩
  dsimp only at spliced
  split at spliced
  · cases spliced
    exact .error _
  split at spliced
  · rename_i noRoom
    cases spliced
    exact .again _ noRoom
  split at spliced
  · cases spliced
    exact .sent _ _ _ _ _
  · cases spliced
    exact .error _

/-- A socket that would block has no room and has been asked for it. -/
theorem write_blocks_cases {w v : World} {h : Sock} {blocks : Bool}
    (result : edgeTriggered.write_blocks w h = some (blocks, v)) :
    ∃ u, w.Arrived u ∧ (blocks = false ∧ v = u ∨ blocks = true ∧ (u.sock h).room = false ∧
      v = u.put h { u.sock h with nospace := true, deniedOut := true }) := by
  obtain ⟨⟨t, u⟩, next, written⟩ := Option.map_eq_some_iff.mp result
  refine ⟨u, World.turn_arrived next, ?_⟩
  dsimp only at written
  split at written
  · cases written
    exact Or.inl ⟨rfl, rfl⟩
  · rename_i blocked
    cases written
    refine Or.inr ⟨rfl, ?_, rfl⟩
    rw [Bool.or_eq_true, not_or, Bool.not_eq_true] at blocked
    exact blocked.1

/-- A write that was refused. -/
theorem Ctx.Moves.refused (c : Ctx World) (x : Side) (u : World) {l : Link}
    (same : (c.pair.link x).Moved l) :
    Ctx.Moves { c with world := u } x { c with
      pair := c.pair.set x l
      world := u.put (c.id, x) { u.sock (c.id, x) with nospace := true, deniedOut := true } } := by
  refine .of_socks ?_ ?_ (fun _ => World.put_foreign u _ _ _) ?_ ?_ fun _ _ => rfl
  · rw [Pair.link_set]
    exact same
  · rw [Pair.link_other_set]
    exact .refl _
  · rw [World.put_self]
    exact ⟨rfl, rfl, rfl, rfl⟩
  · rw [World.put_other]
    exact ⟨rfl, rfl, rfl, rfl, rfl⟩

theorem readTo_drains (c : Ctx World) (x : Side) :
    Holds (readTo edgeTriggered x) anyStop (fun status d => c.Drains x status d) c := by
  simp only [readTo, Exec.holds_bind]
  refine partial_get (partial_check fun readEnd => ?_)
  split
  · rename_i empty
    split
    · rename_i writeEnd
      refine ⟨⟨c.world, .refl _, .refl c x, rfl, fun _ => ⟨rfl, rfl⟩⟩,
        fun _ => ⟨?_, fun _ => writeEnd⟩⟩
      intro some
      omega
    · simp only [Exec.holds_bind, holds_put, Exec.holds_pure]
      refine ⟨⟨c.world, .refl _, ?_, rfl, by simp⟩, by simp⟩
      refine .of_socks ?_ ?_ (fun _ _ => rfl) ⟨rfl, rfl, rfl, rfl⟩
        ⟨rfl, rfl, rfl, rfl, rfl⟩ fun _ _ => rfl
      · rw [Pair.link_set]
        exact ⟨rfl, rfl, id, rfl⟩
      · rw [Pair.link_other_set]
        exact .refl _
  · rename_i filled
    simp only [Exec.holds_bind, holds_ctx]
    cases written : edgeTriggered.write_blocks c.world (c.id, x) with
    | none => exact trivial
    | some result =>
        obtain ⟨blocks, v⟩ := result
        obtain ⟨u, arrived, ⟨rfl, rfl⟩ | ⟨rfl, noRoom, rfl⟩⟩ := write_blocks_cases written
        · simp only [Exec.holds_bind, holds_setCtx, holds_ctx]
          cases answered : edgeTriggered.splice_out v (c.id, x) (c.pair.link x).out.size with
          | none => exact trivial
          | some result =>
              obtain ⟨answer, z⟩ := result
              obtain ⟨u, later, spliced⟩ := splice_out_cases answered
              have arrivedU := arrived.trans later
              simp only [Exec.holds_bind, holds_setCtx]
              cases spliced with
              | error wiped =>
                  simp only [Exec.holds_bind, holds_put, Exec.holds_pure]
                  refine ⟨⟨z, arrivedU, ?_, rfl, by simp⟩, by simp⟩
                  refine .of_socks ?_ ?_ (fun _ _ => rfl) ⟨rfl, rfl, rfl, rfl⟩
                    ⟨rfl, rfl, rfl, rfl, rfl⟩ fun _ _ => rfl
                  · rw [Pair.link_set]
                    exact ⟨rfl, rfl, id, rfl⟩
                  · rw [Pair.link_other_set]
                    exact .refl _
              | again wiped noRoom =>
                  dsimp only
                  split
                  · simp only [Exec.holds_bind, holds_put, Exec.holds_pure]
                    refine ⟨⟨u, arrivedU, .refused c x u ⟨rfl, rfl, id, rfl⟩, ?_, fun _ => ⟨?_, rfl⟩⟩,
                      fun _ => ⟨fun _ => ?_, fun empty => ?_⟩⟩
                    · rw [World.put_other]
                    · rw [Pair.link_set]
                      rfl
                    · rw [World.put_self]
                      exact ⟨noRoom, rfl, rfl⟩
                    · rw [Pair.link_set] at empty
                      exact absurd empty filled
                  · simp only [Exec.holds_bind, holds_put, Exec.holds_pure]
                    refine ⟨⟨u, arrivedU, .refused c x u ⟨rfl, rfl, id, rfl⟩, ?_, by simp⟩, by simp⟩
                    rw [World.put_other]
              | sent n more fits rest full =>
                  simp only [Exec.holds_bind, holds_put]
                  refine partial_check fun _ => ?_
                  simp only [Exec.holds_pure]
                  refine ⟨⟨u, arrivedU, ?_, ?_, by simp⟩, by simp⟩
                  rotate_left
                  · rw [World.fill_sock, World.put_other]
                  refine .of_socks ?_ ?_ (fun _ => World.put_foreign u _ _ _) ?_ ?_ ?_
                  · rw [Pair.link_set]
                    exact ⟨rfl, rfl, id, rfl⟩
                  · rw [Pair.link_other_set]
                    exact .refl _
                  · rw [World.fill_sock, World.put_self]
                    exact ⟨rfl, rfl, rfl, rfl⟩
                  · rw [World.fill_sock, World.put_other]
                    exact ⟨rfl, rfl, rfl, rfl, rfl⟩
                  · intro h different
                    simp [World.fill, different]
        · simp only [Exec.holds_bind, holds_setCtx, Exec.holds_pure]
          have moves := Ctx.Moves.refused c x u (.refl _)
          rw [Pair.set_self] at moves
          refine ⟨⟨u, arrived, moves, ?_, fun _ => ⟨rfl, rfl⟩⟩,
            fun _ => ⟨fun _ => ?_, fun empty => absurd empty filled⟩⟩
          · rw [World.put_other]
          · rw [World.put_self]
            exact ⟨noRoom, rfl, rfl⟩

/-- What a pass of the loop in `ForwardFromOther` leaves when it goes on: the other direction flows
as before. -/
structure Ctx.Keeps (i : ℕ) (w : World) (R ran : Prop) (todo : List Event) (x : Side)
    (d : Ctx World) : Prop where
  steady : Steady i w d
  flows : R → d.Flows ran todo x.other

theorem Ctx.Keeps.moves {d : Ctx World} {u : World} (keeps : Ctx.Keeps i w R ran todo x c)
    (arrived : c.world.Arrived u) (moves : Ctx.Moves { c with world := u } x d) :
    Ctx.Keeps i w R ran todo x d := by
  have quiet := c.quiet_world arrived
  have steadyU := keeps.steady.quiet quiet
  exact ⟨steadyU.moves moves,
    fun run => ((keeps.flows run).quiet keeps.steady quiet).moves moves⟩

/-- Nothing can be read in the direction to `x`, or nothing can be stored. -/
def Ctx.Filled (c : Ctx World) (x : Side) : Prop :=
  Filling True False (c.pair.link x) (c.pair.link x.other) (c.world.sock (c.id, x.other))
    (c.world.full (c.id, x))

/-- Nothing can be written in the direction to `x`. -/
def Ctx.Drained (c : Ctx World) (x : Side) : Prop :=
  Draining True False (c.pair.link x) (c.pair.link x.other) (c.world.sock (c.id, x))

theorem fill_flows (x : Side) (keeps : Ctx.Keeps i w R ran todo x c) :
    Holds (fill edgeTriggered x) anyStop (fun result d => match result with
      | none => Steady i w d ∧ ∀ ran todo y, d.Flows ran todo y
      | some filled => Ctx.Keeps i w R ran todo x d ∧ (filled = false → d.Filled x)) c := by
  simp only [fill, Exec.holds_bind]
  refine partial_other (partial_get ?_)
  split
  · rename_i readable
    simp only [Exec.holds_bind]
    refine (writeFrom_fills x (keeps.steady.capacity x)).mono (fun _ _ stopped => stopped) ?_
    intro status d fills
    obtain ⟨u, arrived, moves⟩ := fills.moves
    have keepsD := keeps.moves arrived moves
    cases status with
    | data => exact ⟨keepsD, by simp⟩
    | noOp => exact ⟨keepsD, fun _ => fills.noOp rfl⟩
    | error =>
        simp only [Exec.holds_bind, Exec.holds_pure]
        exact terminate_flows x keepsD.steady
    | eof =>
        simp only [Exec.holds_bind, Exec.holds_pure]
        refine (closeForReading_flows (x := x.other) keepsD.steady ?_ keepsD.flows).mono
          (fun _ _ stopped => stopped) ?_
        · rw [Side.other_other]
          exact fills.eof rfl
        · exact fun _ e after => ⟨⟨after.1, after.2⟩, by simp⟩
  · rename_i notReadable
    rw [Bool.not_eq_true] at notReadable
    exact ⟨keeps, fun _ => .closed notReadable⟩

theorem drain_flows {F : Prop} (x : Side) (keeps : Ctx.Keeps i w R ran todo x c)
    (filled : F → c.Filled x) :
    Holds (drain edgeTriggered x) anyStop (fun result d => match result with
      | none => Steady i w d ∧ ∀ ran todo y, d.Flows ran todo y
      | some drained => Ctx.Keeps i w R ran todo x d ∧
        (drained = false → F → d.Filled x ∧ d.Drained x)) c := by
  simp only [drain, Exec.holds_bind]
  refine partial_get ?_
  split
  · rename_i writable
    simp only [Exec.holds_bind]
    refine (readTo_drains c x).mono (fun _ _ stopped => stopped) ?_
    intro status d drains
    obtain ⟨u, arrived, moves, source, still⟩ := drains.moves
    have keepsD := keeps.moves arrived moves
    cases status with
    | data => exact ⟨keepsD, by simp⟩
    | noOp =>
        refine ⟨keepsD, fun _ fed => ⟨?_, ?_⟩⟩
        · obtain ⟨size, full⟩ := still rfl
          have arrivedY := (filled fed).arrived (arrived.sock (c.id, x.other))
            (keeps.steady.maskIn x.other)
          unfold Ctx.Filled
          rw [moves.id, source, full, arrived.full]
          exact arrivedY.congr size (moves.capacity x) (moves.flags x.other).1
        · obtain ⟨refused, empty⟩ := drains.noOp rfl
          refine ⟨fun _ some => Or.inl ⟨(refused some).1, (refused some).2.1⟩, ?_,
            fun _ _ some => (refused some).2.2⟩
          intro closed stillWritable
          apply Nat.pos_of_ne_zero
          intro none
          have ended := keepsD.steady.ends x closed stillWritable
          rw [empty none] at ended
          cases ended
    | error =>
        simp only [Exec.holds_bind, Exec.holds_pure]
        exact terminate_flows x keepsD.steady
    | eof =>
        simp only [Exec.holds_bind, Exec.holds_pure]
        refine (closeForWriting_flows keepsD.steady keepsD.flows).mono
          (fun _ _ stopped => stopped) ?_
        exact fun _ e after => ⟨⟨after.1, after.2⟩, by simp⟩
  · rename_i notWritable
    rw [Bool.not_eq_true] at notWritable
    exact ⟨keeps, fun _ fed => ⟨filled fed, .closed notWritable⟩⟩

/-- When `ForwardFromOther` returns, its direction does not stall. -/
theorem forward_flows (x : Side) (fuel : ℕ) (res : Bool)
    (keeps : Ctx.Keeps i w R ran todo x c) :
    Holds (forward edgeTriggered x fuel res) anyStop
      (fun _ d => Ctx.Keeps i w R ran todo x d ∧ ∀ todo, d.Flows True todo x) c := by
  induction fuel generalizing c res with
  | zero => exact trivial
  | succ fuel ih =>
      simp only [forward, Exec.holds_bind]
      refine (fill_flows x keeps).mono (fun _ _ stopped => stopped) ?_
      intro filled d afterFill
      cases filled with
      | none => exact ⟨⟨afterFill.1, fun _ => afterFill.2 _ _ _⟩, fun _ => afterFill.2 _ _ _⟩
      | some filled =>
          simp only [Exec.holds_bind]
          refine (drain_flows x afterFill.1 afterFill.2).mono (fun _ _ stopped => stopped) ?_
          intro drained e afterDrain
          cases drained with
          | none => exact ⟨⟨afterDrain.1, fun _ => afterDrain.2 _ _ _⟩, fun _ => afterDrain.2 _ _ _⟩
          | some drained =>
              simp only
              split
              · exact ih true afterDrain.1
              · rename_i idle
                rw [Bool.or_eq_true, not_or, Bool.not_eq_true, Bool.not_eq_true] at idle
                obtain ⟨full, empty⟩ := afterDrain.2 idle.2 idle.1
                exact ⟨afterDrain.1, fun todo =>
                  ⟨full.mono id False.elim, empty.mono id False.elim⟩⟩

end Hcproxy.Forwarder
