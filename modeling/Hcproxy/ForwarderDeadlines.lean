import Hcproxy.ForwarderPasses

set_option autoImplicit false

namespace Hcproxy.Forwarder

open Exec (Holds Relates)

variable {W : Type} {k : Kernel W} {f : Frame} {c d : Ctx W}

/-- A deadline that `Add` or `Refresh` has set by a reading of the clock, which is `since` or later
and not after `clock`. -/
def SetIn (timeout : Timeout) (since clock : ℕ) (deadline : ℤ) : Prop :=
  ∃ now, since ≤ now ∧ now ≤ clock ∧ deadline = Clock.add now timeout

theorem SetIn.wider {timeout : Timeout} {since earlier clock later : ℕ} {deadline : ℤ}
    (set : SetIn timeout since clock deadline) (before : earlier ≤ since) (behind : clock ≤ later) :
    SetIn timeout earlier later deadline := by
  obtain ⟨now, first, last, same⟩ := set
  exact ⟨now, Nat.le_trans before first, Nat.le_trans last behind, same⟩

/-- Unless it has overflowed it is a whole timeout later than `since`. -/
theorem SetIn.late {timeout : Timeout} {since clock : ℕ} {deadline : ℤ}
    (set : SetIn timeout since clock deadline) (fits : Clock.Fits clock timeout) :
    since + timeout.1.toInt ≤ deadline := by
  obtain ⟨now, first, last, rfl⟩ := set
  rw [Clock.add_of_fits (fits.earlier last)]
  omega

/-- What a method of a link may do to the deadlines: those that are new are set while it runs. -/
structure Pushes (c d : Ctx W) : Prop where
  id : d.id = c.id
  clock : c.clock ≤ d.clock
  timeout : d.loop.timeout = c.loop.timeout
  expire : ∀ e ∈ d.loop.expire, e ∈ c.loop.expire ∨
    e.1.1 = c.id ∧ SetIn c.loop.timeout c.clock d.clock e.2

theorem Pushes.same (id : d.id = c.id) (clock : c.clock ≤ d.clock) (loop : d.loop = c.loop) :
    Pushes c d :=
  ⟨id, clock, by rw [loop], fun e member => Or.inl (loop ▸ member)⟩

theorem Pushes.refl (c : Ctx W) : Pushes c c := .same rfl (Nat.le_refl _) rfl

theorem Pushes.trans {e : Ctx W} (first : Pushes c d) (second : Pushes d e) : Pushes c e := by
  refine ⟨second.id.trans first.id, Nat.le_trans first.clock second.clock,
    second.timeout.trans first.timeout, ?_⟩
  intro n member
  rcases second.expire n member with before | ⟨own, set⟩
  · refine (first.expire n before).imp_right fun ⟨own, set⟩ => ⟨own, ?_⟩
    exact set.wider (Nat.le_refl _) second.clock
  · rw [first.timeout] at set
    exact Or.inr ⟨own.trans first.id, set.wider first.clock (Nat.le_refl _)⟩

instance : Trans (Pushes (W := W)) Pushes Pushes := ⟨Pushes.trans⟩

theorem Calm.pushes {b : Ctx W} (calm : Calm k b d) (id : b.id = c.id) (clock : b.clock = c.clock)
    (loop : b.loop = c.loop) : Pushes c d := by
  obtain ⟨gone, kept⟩ := calm.expire
  refine ⟨calm.id.trans id, Nat.le_of_eq (calm.clock.trans clock).symm,
    calm.timeout.trans (by rw [loop]), ?_⟩
  intro e member
  rw [kept, loop] at member
  exact Or.inl (List.mem_filter.mp member).1

/-- A method that moves nothing. -/
structure Rests (c d : Ctx W) : Prop extends Pushes c d where
  traffic : d.pair.traffic = c.pair.traffic

theorem Rests.refl (c : Ctx W) : Rests c c := ⟨.refl c, rfl⟩

instance : Trans (Rests (W := W)) Rests Rests :=
  ⟨fun first second => ⟨first.toPushes.trans second.toPushes, second.traffic.trans first.traffic⟩⟩

theorem Counts.rests (counts : Counts c d) : Rests c d := by
  have links : ∀ x, (d.pair.link x).traffic = (c.pair.link x).traffic := by
    intro x
    have link := counts.links x
    simp only [Link.traffic, link.received, link.delivered, link.eof, link.finished, link.readable,
      link.writable]
  exact ⟨.same counts.id (Nat.le_of_eq counts.clock.symm) counts.loop,
    traffic_of_links .client (links .client) (links .server)⟩

theorem rests_get (x : Side) (c : Ctx W) : Relates Rests (get x) c :=
  (counts_get x c).mono Counts.rests

theorem rests_check (condition : Prop) [Decidable condition] (c : Ctx W) :
    Relates Rests (check condition) c := (counts_check condition c).mono Counts.rests

theorem rests_other (x : Side) (c : Ctx W) : Relates Rests (other x) c :=
  (counts_other x c).mono Counts.rests

theorem rests_delete (x : Side) (c : Ctx W) : Relates Rests (delete x) c :=
  (counts_delete x c).mono Counts.rests

theorem rests_incRef (x : Side) (c : Ctx W) : Relates Rests (incRef x) c :=
  (counts_incRef x c).mono Counts.rests

theorem rests_hold (x : Side) (c : Ctx W) : Relates Rests (hold x) c :=
  (counts_hold x c).mono Counts.rests

theorem rests_release (x : Side) (c : Ctx W) : Relates Rests (release x) c :=
  (counts_release x c).mono Counts.rests

/-- The deadline of the link `x`, if it has a node, was set at `since` or later. -/
def Ctx.Due (c : Ctx W) (x : Side) (since : ℕ) : Prop :=
  ∀ e ∈ c.loop.expire, e.1 = (c.id, x) → SetIn c.loop.timeout since c.clock e.2

theorem Ctx.Due.since {x : Side} {since earlier : ℕ} (due : c.Due x since)
    (before : earlier ≤ since) : c.Due x earlier :=
  fun e member own => (due e member own).wider before (Nat.le_refl _)

theorem Pushes.due (pushes : Pushes c d) {x : Side} {since : ℕ} (due : c.Due x since)
    (early : since ≤ c.clock) : d.Due x since := by
  intro e member own
  rw [pushes.id] at own
  rw [pushes.timeout]
  rcases pushes.expire e member with before | ⟨_, set⟩
  · exact (due e before own).wider (Nat.le_refl _) pushes.clock
  · exact set.wider early (Nat.le_refl _)

theorem refreshLoop_due (x : Side) (c : Ctx W) :
    Holds (refreshLoop k x) (fun _ d => Rests c d)
      (fun _ d => Rests c d ∧ d.Due x c.clock) c := by
  simp only [refreshLoop, now, Exec.holds_bind, holds_get, holds_ctx, holds_setCtx,
    Exec.holds_pure]
  refine ⟨fun _ => .refl c, fun _ => ?_⟩
  generalize (k.elapse c.world).1 = elapsed
  generalize (k.elapse c.world).2 = world
  cases refreshed : c.loop.refresh (c.id, x) (c.pair.link x).toEventHandler
    (c.clock + elapsed) with
  | error failed =>
      cases failed with
      | registered | sorted => exact ⟨.same rfl (Nat.le_add_right _ _) rfl, rfl⟩
  | ok loop =>
      obtain rfl := EventLoop.refresh_ok refreshed
      have set : SetIn c.loop.timeout c.clock (c.clock + elapsed)
          (Clock.add (c.clock + elapsed) c.loop.timeout) :=
        ⟨_, Nat.le_add_right _ _, Nat.le_refl _, rfl⟩
      refine ⟨⟨⟨rfl, Nat.le_add_right _ _, rfl, ?_⟩, rfl⟩, ?_⟩
      · intro e member
        rcases List.mem_append.mp member with before | new
        · exact Or.inl (EventLoop.mem_of_mem_erase before)
        · cases List.mem_singleton.mp new
          exact Or.inr ⟨rfl, set⟩
      · intro e member own
        rcases List.mem_append.mp member with before | new
        · have other := (List.mem_filter.mp before).2
          simp only [own, ne_eq, not_true_eq_false, decide_false, Bool.false_eq_true] at other
        · cases List.mem_singleton.mp new
          exact set

theorem rests_refreshLoop (x : Side) (c : Ctx W) : Relates Rests (refreshLoop k x) c :=
  (refreshLoop_due x c).mono (fun _ _ rests => rests) fun _ _ refreshed => refreshed.1

/-- A link that is closed has no node. -/
theorem Held.due {x : Side} (held : Held f c) (closed : (c.pair.link x).isOpen = false)
    (since : ℕ) : c.Due x since := by
  intro e member own
  have listed := held.loop.listed x
  rw [(held.owned x).registered, closed, Bool.toNat_false, List.count_eq_zero, ← held.loop.id]
    at listed
  exact absurd (List.mem_map.mpr ⟨e, member, own⟩) listed

theorem refresh_due (x : Side) (good : Good f c) :
    Holds (refresh k x) (fun _ d => Rests c d)
      (fun _ d => Rests c d ∧ d.Due x c.clock) c := by
  simp only [refresh, Exec.holds_bind, holds_get]
  refine ⟨fun _ => .refl c, fun _ => ?_⟩
  split
  · exact refreshLoop_due x c
  · rename_i closed
    exact ⟨.refl c, good.due (Bool.eq_false_iff.mpr closed) _⟩

theorem Wrote.pushes {x : Side} {status : IoStatus} (wrote : Wrote k x c status d) :
    Pushes c d := by
  cases wrote with
  | full => exact .refl c
  | again | error | eof | data => exact .same rfl (Nat.le_refl _) rfl

theorem Fill.pushes {x : Side} {r : Option Bool} (fills : Fill k f x c r d) : Pushes c d := by
  cases fills with
  | off => exact .refl c
  | noOp _ _ wrote => exact wrote.pushes
  | data => exact .same rfl (Nat.le_refl _) rfl
  | eof _ _ _ _ calm => exact calm.pushes rfl rfl rfl
  | error _ _ _ calm => exact calm.pushes rfl rfl rfl

theorem ReadOut.pushes {x : Side} {status : IoStatus} (read : ReadOut k x c status d) :
    Pushes c d := by
  cases read with
  | empty => exact .refl c
  | eof | blocked | again | lost | error | data => exact .same rfl (Nat.le_refl _) rfl

theorem Drain.pushes {x : Side} {r : Option Bool} (drains : Drain k f x c r d) : Pushes c d := by
  cases drains with
  | off => exact .refl c
  | noOp _ _ read => exact read.pushes
  | data => exact .same rfl (Nat.le_refl _) rfl
  | eof _ _ _ _ calm => exact calm.pushes rfl rfl rfl
  | error _ _ _ calm => exact calm.pushes rfl rfl rfl

/-- What the methods that move bytes leave, when they return whether anything has been moved: if
nothing has, nothing is different or the pair has been terminated. -/
structure Active (f : Frame) (c : Ctx W) (r : Bool) (d : Ctx W) : Prop extends Good f d where
  pushes : Pushes c d
  quiet : r = false → d.pair.traffic = c.pair.traffic ∨ ∀ y, (d.pair.link y).isOpen = false

theorem Active.refl (good : Good f c) : Active f c false c :=
  ⟨good, .refl c, fun _ => Or.inl rfl⟩

theorem closed_of_traffic {p q : Pair} (same : q.traffic = p.traffic)
    (closed : ∀ y, (p.link y).isOpen = false) (y : Side) : (q.link y).isOpen = false := by
  have link := traffic_link same y
  simp only [Link.traffic, Traffic.mk.injEq] at link
  rw [Link.isOpen, link.2.2.2.2.1, link.2.2.2.2.2]
  exact closed y

theorem Active.trans {e : Ctx W} {first second : Bool} (before : Active f c first d)
    (behind : Active f d second e) : Active f c (first || second) e := by
  refine ⟨behind.toGood, before.pushes.trans behind.pushes, ?_⟩
  intro quiet
  obtain ⟨none, noneToo⟩ := Bool.or_eq_false_iff.mp quiet
  rcases behind.quiet noneToo with same | closed
  · rcases before.quiet none with sameToo | closed
    · exact Or.inl (same.trans sameToo)
    · exact Or.inr (closed_of_traffic same closed)
  · exact Or.inr closed

theorem terminate_active (x : Side) (good : Good f c) (busy : ∀ y, 0 < f.temps y) :
    Holds (terminate k x) (fun _ _ => False) (fun _ d => Active f c false d) c := by
  refine (terminate_cases k good.toHeld busy good.sent).mono (fun _ _ never => never) ?_
  rintro _ d ⟨goodD, calm, closed⟩
  exact ⟨goodD, calm.pushes rfl rfl rfl, fun _ => Or.inr closed⟩

/-- `ForwardFromOther` returns `false` only if it has moved nothing or has terminated the pair. The
induction is on the passes. -/
theorem forward_active (x : Side) (fuel : ℕ) (res : Bool) (good : Good f c)
    (busy : ∀ y, 0 < f.temps y) :
    Holds (forward k x fuel res) (fun _ _ => True) (fun r d => Active f c (res || r) d ∧
      (r = false → res = false ∨ ∀ y, (d.pair.link y).isOpen = false)) c := by
  induction fuel generalizing c res with
  | zero => trivial
  | succ fuel ih =>
      simp only [forward, Exec.holds_bind]
      refine (fill_cases k x good busy).mono (fun _ _ _ => trivial) ?_
      rintro filled d ⟨goodD, fills⟩
      have pushes := fills.pushes
      cases filled with
      | none =>
          cases fills with
          | error _ _ closed _ =>
              exact ⟨⟨goodD, pushes, fun _ => Or.inr closed⟩, fun _ => Or.inr closed⟩
      | some filled =>
          simp only [Exec.holds_bind]
          refine (drain_cases k x goodD busy).mono (fun _ _ _ => trivial) ?_
          rintro drained e ⟨goodE, drains⟩
          have pushesToo := pushes.trans drains.pushes
          cases drained with
          | none =>
              cases drains with
              | error _ _ closed _ =>
                  exact ⟨⟨goodE, pushesToo, fun _ => Or.inr closed⟩, fun _ => Or.inr closed⟩
          | some drained =>
              simp only
              split
              · refine (ih true goodE).mono (fun _ _ _ => trivial) ?_
                rintro r g ⟨active, ended⟩
                have closed : r = false → ∀ y, (g.pair.link y).isOpen = false :=
                  fun none => (ended none).resolve_left Bool.noConfusion
                refine ⟨⟨active.toGood, pushesToo.trans active.pushes, ?_⟩, fun none =>
                  Or.inr (closed none)⟩
                exact fun quiet => Or.inr (closed (Bool.or_eq_false_iff.mp quiet).2)
              · rename_i noIo
                obtain ⟨rfl, rfl⟩ := Bool.or_eq_false_iff.mp (Bool.eq_false_iff.mpr noIo)
                refine ⟨⟨goodE, pushesToo, fun _ => Or.inl ?_⟩, fun none => Or.inl none⟩
                rw [drains.quiet, fills.quiet]

theorem forwardFromOther_active (fuel : ℕ) (x : Side) (good : Good f c)
    (busy : ∀ y, 0 < f.temps y) :
    Holds (forwardFromOther k fuel x) (fun _ _ => True) (fun r d => Active f c r d) c :=
  (forward_active x fuel false good busy).mono (fun _ _ _ => trivial) fun _ _ after => after.1

theorem process_active (fuel : ℕ) (x : Side) (events : Events) (leftFirst : Bool) (good : Good f c)
    (busy : ∀ y, 0 < f.temps y) :
    Holds (process k fuel x events leftFirst) (fun _ _ => True) (fun r d => Active f c r d) c := by
  have out : ∀ {d : Ctx W}, Good f d →
      Holds (if hasBits events EPOLLOUT then forwardFromOther k fuel x else pure false)
        (fun _ _ => True) (fun r e => Active f d r e) d := by
    intro d goodD
    split
    · exact forwardFromOther_active fuel x goodD busy
    · exact .refl goodD
  have into : ∀ {d : Ctx W}, Good f d →
      Holds (if hasBits events EPOLLIN then do forwardFromOther k fuel (← other x)
        else pure false) (fun _ _ => True) (fun r e => Active f d r e) d := by
    intro d goodD
    split
    · simp only [Exec.holds_bind, holds_other (goodD.alive (busy x)) goodD.linked]
      exact forwardFromOther_active fuel x.other goodD busy
    · exact .refl goodD
  simp only [process]
  split
  · simp only [Exec.holds_bind, Exec.holds_pure]
    exact (terminate_active x good busy).mono (fun _ _ never => never.elim) fun _ _ after => after
  · split
    · refine (out good).bind fun l d first => (into first.toGood).bind fun r e second => ?_
      exact first.trans second
    · refine (into good).bind fun r d first => (out first.toGood).bind fun l e second => ?_
      rw [Exec.holds_pure, Bool.or_comm]
      exact first.trans second

/-- If anything has been moved, the deadlines of both links have been pushed back. -/
structure Pushed (c d : Ctx W) : Prop extends Pushes c d where
  due : d.pair.traffic = c.pair.traffic ∨ ∀ x, d.Due x c.clock

theorem Pushed.rests {e : Ctx W} (pushed : Pushed c d) (rests : Rests d e) : Pushed c e := by
  refine ⟨pushed.toPushes.trans rests.toPushes, ?_⟩
  rcases pushed.due with same | due
  · exact Or.inl (rests.traffic.trans same)
  · exact Or.inr fun x => rests.toPushes.due (due x) pushed.clock

theorem onEvent_pushed (fuel : ℕ) (x : Side) (events : Events) (leftFirst : Bool) (good : Good f c)
    (held : 0 < f.temps x) (isOpen : (c.pair.link x).isOpen = true) :
    Holds (onEvent k fuel x events leftFirst) (fun _ _ => True) (fun _ d => Pushed c d) c := by
  have heldHere : 0 < (f.hold x.other).temps x := Nat.lt_of_lt_of_le held (f.hold_le _ _)
  have heldThere : 0 < (f.hold x.other).temps x.other := by
    rw [Frame.hold_self]
    exact Nat.succ_pos _
  have busy : ∀ y, 0 < (f.hold x.other).temps y := (Side.forall_iff x).mpr ⟨heldHere, heldThere⟩
  have finish : ∀ {d : Ctx W}, Good (f.hold x.other) d → Pushed c d →
      Holds (do release (← other x)) (fun _ _ => True) (fun _ e => Pushed c e) d := by
    intro d goodD pushed
    simp only [Exec.holds_bind, holds_other (goodD.alive heldHere) goodD.linked]
    exact Exec.Holds.mono (rests_release x.other d) (fun _ _ _ => trivial)
      fun _ _ rests => pushed.rests rests
  simp only [onEvent, Exec.holds_bind, holds_other (good.alive held) good.linked]
  refine ((hold_spec good (good.other_alive isOpen)).and (rests_hold x.other c)).mono
    (fun _ _ _ => trivial) ?_
  rintro _ d ⟨⟨goodD, _⟩, restsD⟩
  refine (process_active fuel x events leftFirst goodD busy).mono (fun _ _ _ => trivial) ?_
  intro active e activeE
  have goodE := activeE.toGood
  have pushesE := restsD.toPushes.trans activeE.pushes
  have clockE := pushesE.clock
  cases active with
  | false =>
      simp only [Bool.false_eq_true, ↓reduceIte]
      refine finish goodE ⟨pushesE, ?_⟩
      rcases activeE.quiet rfl with same | closed
      · exact Or.inl (same.trans restsD.traffic)
      · exact Or.inr fun y => goodE.due (closed y) _
  | true =>
      simp only [↓reduceIte, Exec.holds_bind]
      refine ((refresh_spec k x goodE heldHere).and (refresh_due x goodE)).mono
        (fun _ _ _ => trivial) ?_
      rintro _ g ⟨goodG, restsG, here⟩
      have pushesG := pushesE.trans restsG.toPushes
      have clockG := pushesG.clock
      simp only [holds_other (goodG.alive heldHere) goodG.linked]
      refine ((refresh_spec k x.other goodG heldThere).and (refresh_due x.other goodG)).mono
        (fun _ _ _ => trivial) ?_
      rintro _ h ⟨goodH, restsH, there⟩
      have due : ∀ y, h.Due y c.clock := by
        refine (Side.forall_iff x).mpr ⟨?_, there.since clockG⟩
        exact restsH.toPushes.due (here.since clockE) clockG
      simpa using finish goodH ⟨pushesG.trans restsH.toPushes, Or.inr due⟩

theorem dispatch_pushed (fuel : ℕ) (x : Side) (events : Events) (leftFirst : Bool)
    (good : Good f c) (held : 0 < f.temps x) :
    Holds (dispatch k fuel x events leftFirst) (fun _ _ => True) (fun _ d => Pushed c d) c := by
  have finish : ∀ {d : Ctx W}, Pushed c d →
      Holds (release x) (fun _ _ => True) (fun _ e => Pushed c e) d :=
    fun pushed => Exec.Holds.mono (rests_release x _) (fun _ _ _ => trivial)
      fun _ _ rests => pushed.rests rests
  simp only [dispatch, Exec.holds_bind, holds_link (good.alive held)]
  split
  · rename_i registered
    have isOpen := (good.owned x).registered.symm.trans registered
    simp only [Exec.holds_bind]
    exact (onEvent_pushed fuel x events leftFirst good held isOpen).mono (fun _ _ _ => trivial)
      fun _ d pushed => finish pushed
  · exact finish ⟨.refl c, Or.inl rfl⟩

theorem Relates.pushes {α : Type} {m : Exec W α} (rests : Relates Rests m c) :
    Relates Pushes m c := Exec.Relates.mono rests Rests.toPushes

theorem pushes_terminate (x : Side) (c : Ctx W) : Relates Pushes (terminate k x) c :=
  Exec.Holds.mono (calm_terminate x c) (fun _ _ calm => calm.pushes rfl rfl rfl)
    fun _ _ calm => calm.pushes rfl rfl rfl

theorem pushes_onTimeout (x : Side) (c : Ctx W) : Relates Pushes (onTimeout k x) c := by
  unfold onTimeout
  refine (Relates.pushes (rests_other x c)).bind fun y d _ _ =>
    (Relates.pushes (rests_hold y d)).bind fun _ e _ _ => (pushes_terminate x e).bind fun _ g _ _ =>
    (Relates.pushes (rests_other x g)).bind fun z h _ _ => ?_
  exact Relates.pushes (rests_release z h)

theorem pushes_expire (x : Side) (c : Ctx W) : Relates Pushes (expire k x) c := by
  have finish : ∀ d : Ctx W, Relates Pushes (release x) d :=
    fun d => Relates.pushes (rests_release x d)
  unfold expire
  refine (Relates.pushes (rests_get x c)).bind fun l d _ _ =>
    (Relates.pushes (rests_check _ d)).bind fun _ e _ _ =>
    (Relates.pushes (rests_hold x e)).bind fun _ g _ _ => (pushes_onTimeout x g).bind fun _ h _ _ =>
    (Relates.pushes (rests_get x h)).bind fun m i _ _ => ?_
  split
  · exact (Relates.pushes (rests_refreshLoop x i)).bind fun _ j _ _ => finish j
  · exact finish i

theorem pushes_put (x : Side) (l : Link) (c : Ctx W) : Relates Pushes (put x l) c :=
  (holds_put x l).mpr (.same rfl (Nat.le_refl _) rfl)

theorem pushes_call (x : Side) (syscall : Call) (c : Ctx W) :
    Relates Pushes (call k x syscall) c :=
  (holds_call k x syscall).mpr (.same rfl (Nat.le_refl _) rfl)

theorem pushes_init (x : Side) (size_bytes : BufferSize) (c : Ctx W) :
    Relates Pushes (init k x size_bytes) c := by
  unfold init
  refine (Relates.pushes (rests_get x c)).bind fun l d _ _ => ?_
  simp only [Relates, Exec.holds_bind, holds_ctx]
  split
  · exact .same rfl (Nat.le_refl _) rfl
  · exact .same rfl (Nat.le_refl _) rfl

theorem pushes_add (x : Side) (events : Events) (c : Ctx W) :
    Relates Pushes (add k x events) c := by
  unfold add
  refine (Relates.pushes (rests_get x c)).bind fun l d ran _ => ?_
  simp only [Relates, now, Exec.holds_bind, holds_ctx, holds_setCtx, Exec.holds_pure]
  generalize (k.elapse d.world).1 = elapsed
  cases added : d.loop.add (d.id, x) l.toEventHandler events (d.clock + elapsed) with
  | none => exact .same rfl (Nat.le_add_right _ _) rfl
  | some result =>
      rw [EventLoop.add] at added
      split at added
      · cases added
      · cases added
        simp only [Exec.holds_bind, holds_setCtx, holds_call]
        refine ⟨rfl, Nat.le_add_right _ _, rfl, ?_⟩
        intro e member
        rcases List.mem_append.mp member with before | new
        · exact Or.inl before
        · cases List.mem_singleton.mp new
          exact Or.inr ⟨rfl, _, Nat.le_add_right _ _, Nat.le_refl _, rfl⟩

theorem pushes_write (x : Side) (data : Bytes) (c : Ctx W) :
    Relates Pushes (write x data) c := by
  unfold write
  refine (Relates.pushes (rests_get x c)).bind fun l d _ _ =>
    (Relates.pushes (rests_check _ d)).bind fun _ e _ _ =>
    (Relates.pushes (rests_check _ e)).bind fun _ g _ _ =>
    (Relates.pushes (rests_check _ g)).bind fun _ h _ _ => (pushes_put x _ h).bind fun _ i _ _ => ?_
  exact Relates.pushes (rests_check _ i)

theorem pushes_discard (x : Side) (c : Ctx W) : Relates Pushes (discard k x) c := by
  unfold discard
  refine (pushes_call x _ c).bind fun _ d _ _ => (Relates.pushes (rests_get x d)).bind fun l e _ _ =>
    (pushes_put x _ e).bind fun _ g _ _ => ?_
  exact Relates.pushes (rests_delete x g)

theorem pushes_new (opt : Options) (c : Ctx W) : Relates Pushes (new k opt) c := by
  have pipes : Relates Pushes (do
      if ← init k .client opt.server_to_client_buffer_size_bytes
      then init k .server opt.client_to_server_buffer_size_bytes
      else pure false) c := by
    refine (pushes_init _ _ c).bind fun ready d _ _ => ?_
    split
    · exact pushes_init _ _ d
    · exact .refl d
  unfold new
  refine pipes.bind fun ready d _ _ => ?_
  split
  · have linked : Relates Pushes (do
        incRef .client
        incRef .server
        add k .client (EPOLLIN ||| EPOLLOUT ||| EPOLLET)
        add k .server (EPOLLIN ||| EPOLLOUT ||| EPOLLET)
        write .client kResponse) { d with pair := { d.pair with linked := true } } := by
      refine (Relates.pushes (rests_incRef _ _)).bind fun _ e _ _ =>
        (Relates.pushes (rests_incRef _ e)).bind fun _ g _ _ =>
        (pushes_add _ _ g).bind fun _ h _ _ => (pushes_add _ _ h).bind fun _ i _ _ => ?_
      exact pushes_write _ _ i
    have whole := Exec.Relates.after linked
      (.same rfl (Nat.le_refl _) rfl : Pushes d { d with pair := { d.pair with linked := true } })
    simp only [Exec.holds_bind] at whole
    simp only [Relates, Exec.holds_bind, holds_ctx, holds_setCtx]
    exact whole
  · exact (pushes_discard _ d).bind fun _ e _ _ => pushes_discard _ e

end Hcproxy.Forwarder
