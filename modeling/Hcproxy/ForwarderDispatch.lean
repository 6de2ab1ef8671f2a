import Hcproxy.ForwarderCalls

set_option autoImplicit false

namespace Hcproxy.Forwarder

open Exec (Holds)

variable {W : Type}

/-- The frame with other references held. -/
def Frame.withTemps (f : Frame) (temps : Side → ℕ) : Frame := { f with temps }

def Frame.hold (f : Frame) (x : Side) : Frame :=
  f.withTemps fun y => if y = x then f.temps y + 1 else f.temps y

def Frame.release (f : Frame) (x : Side) : Frame :=
  f.withTemps fun y => if y = x then f.temps y - 1 else f.temps y

theorem LoopInv.withTemps {f : Frame} {c : Ctx W} (inv : LoopInv f c) (temps : Side → ℕ) :
    LoopInv (f.withTemps temps) c :=
  ⟨inv.id, inv.timeout, inv.total, inv.listed, inv.foreign, inv.deadlines⟩

/-- An execution that stopped because a deadline has overflowed, with a pair that is as it should
be. -/
def overflows (f : Frame) (why : Stop) (c : Ctx W) : Prop :=
  why = .unsorted ∧ Good f c ∧ ¬ Clock.Fits c.clock f.timeout

theorem refreshLoop_spec (k : Kernel W) {f : Frame} {c : Ctx W} {x : Side} (good : Good f c)
    (alive : (c.pair.link x).deleted = false) (isOpen : (c.pair.link x).isOpen = true) :
    Holds (refreshLoop k x) (overflows f) (fun _ d => Good f d) c := by
  have inv := good.loop
  have registered := (good.owned x).registered.trans isOpen
  have listed := inv.listed x
  rw [registered] at listed
  have member : (c.id, x) ∈ c.loop.expire.map Prod.fst := by
    rw [inv.id]
    exact List.count_pos_iff.mp (by rw [listed]; decide)
  simp only [refreshLoop, now, Exec.holds_bind, holds_link alive, holds_ctx, holds_setCtx,
    Exec.holds_pure]
  generalize (k.elapse c.world).1 = elapsed
  generalize (k.elapse c.world).2 = world
  rcases c.loop.refresh_cases (c.clock + elapsed) registered member with
    refreshed | ⟨refused, e, inside, later⟩
  rotate_left
  · have early := inv.deadlines e inside
    rw [inv.timeout] at later
    rw [refused]
    refine ⟨rfl, good.of_pair (inv.of_same rfl rfl (Nat.le_add_right _ _) fun _ => rfl) rfl, ?_⟩
    intro (fits : Clock.Fits (c.clock + elapsed) f.timeout)
    rw [Clock.add_of_fits fits] at later
    omega
  rw [refreshed]
  refine good.of_pair ⟨inv.id, inv.timeout, inv.total, ?_, ?_, ?_⟩ rfl
  · refine (Side.forall_iff x).mpr ⟨?_, ?_⟩
    · simp only [List.map_append, List.count_append, List.map_cons, List.map_nil, inv.id,
        EventLoop.count_erase_self, registered]
      simp
    · have different : (f.id, x.other) ≠ (f.id, x) := by simp
      simp only [List.map_append, List.count_append, List.map_cons, List.map_nil, inv.id,
        EventLoop.count_erase_other _ different, inv.listed x.other]
      simp
  · rw [List.filter_append, inv.id, erase_foreign, inv.foreign]
    simp
  · intro e inside
    rcases List.mem_append.mp inside with inside | inside
    · have := inv.deadlines e (EventLoop.mem_of_mem_erase inside)
      dsimp only
      omega
    · cases List.mem_singleton.mp inside
      rw [← inv.timeout]
      exact Clock.add_le _ _

/-- A link whose references have changed, and nothing else that matters to the loop or to what the
pair carries. -/
theorem Good.rebased {f : Frame} {c : Ctx W} {x : Side} {m : Link} {temps : Side → ℕ}
    (good : Good f c) (owned : Owned m (c.pair.link x.other))
    (size : m.out.size = (c.pair.link x).out.size)
    (capacity : m.out.capacity = (c.pair.link x).out.capacity)
    (eventLoop : m.event_loop = (c.pair.link x).event_loop) (here : m.temps = temps x)
    (there : temps x.other = f.temps x.other) (readable : m.readable = (c.pair.link x).readable)
    (writable : m.writable = (c.pair.link x).writable)
    (received : m.received = (c.pair.link x).received)
    (delivered : m.delivered = (c.pair.link x).delivered) (eof : m.eof = (c.pair.link x).eof)
    (finished : m.finished = (c.pair.link x).finished)
    (live : Live (greeting x) (c.pair.link x) (c.pair.link x.other) →
      Live (greeting x) m (c.pair.link x.other)) :
    Good (f.withTemps temps) { c with pair := c.pair.set x m } := by
  have isOpen : m.isOpen = (c.pair.link x).isOpen := by simp [Link.isOpen, readable, writable]
  have sentBack := good.sent x.other
  have ownedBack := good.owned x.other
  rw [Side.other_other] at sentBack ownedBack
  refine ⟨⟨?_, ?_, ?_, ?_⟩, ?_, ?_, ?_⟩
  · refine (good.loop.withTemps temps).of_same rfl rfl (Nat.le_refl _) ?_
    exact (Side.forall_iff x).mpr ⟨by simpa using eventLoop, by simp⟩
  · simpa using good.linked
  · refine (Side.forall_iff x).mpr ⟨?_, ?_⟩
    · rw [Pair.link_set]
      exact here
    · rw [Pair.link_other_set]
      exact (good.temps x.other).trans there.symm
  · refine (Side.forall_iff x).mpr ⟨?_, ?_⟩
    · rw [Pair.link_set, Pair.link_other_set]
      exact owned
    · rw [Side.other_other, Pair.link_set, Pair.link_other_set]
      exact ownedBack.kept (.refl _) isOpen
  · refine (Side.forall_iff x).mpr ⟨?_, ?_⟩
    · rw [Pair.link_set, Pair.link_other_set]
      exact (good.sent x).congr size capacity writable delivered finished rfl rfl rfl
    · rw [Side.other_other, Pair.link_set, Pair.link_other_set]
      exact sentBack.congr rfl rfl rfl rfl rfl readable received eof
  · intro running
    rw [Pair.set_terminated] at running
    have liveBack := good.live running x.other
    rw [Side.other_other] at liveBack
    refine (Side.forall_iff x).mpr ⟨?_, ?_⟩
    · rw [Pair.link_set, Pair.link_other_set]
      exact live (good.live running x)
    · rw [Side.other_other, Pair.link_set, Pair.link_other_set]
      exact liveBack.congr rfl rfl rfl readable received eof
  · intro terminated
    rw [Pair.set_terminated] at terminated
    have dead := good.dead terminated
    refine (Side.forall_iff x).mpr ⟨?_, ?_⟩
    · rw [Pair.link_set, isOpen]
      exact dead x
    · rw [Pair.link_other_set]
      exact dead x.other

theorem Owned.hold {this that : Link} (owned : Owned this that) (alive : this.deleted = false) :
    Owned { this with ref_count := this.ref_count + 1, temps := this.temps + 1 } that := by
  have refs := owned.refs
  refine ⟨?_, ?_, owned.registered, owned.events, owned.removes, owned.closes, owned.deletes,
    owned.readEnd, owned.writeEnd, owned.ends⟩
  · change this.ref_count + 1 = this.event_loop.toNat + that.isOpen.toNat + (this.temps + 1)
    omega
  · change this.deleted = true ↔ this.ref_count + 1 = 0
    simp [alive]

theorem hold_spec {f : Frame} {c : Ctx W} {x : Side} (good : Good f c)
    (alive : (c.pair.link x).deleted = false) :
    Holds (hold x) (fun _ _ => False)
      (fun _ d => Good (f.hold x) d ∧ ∀ y, (d.pair.link y).events = (c.pair.link y).events) c := by
  have there : (({ c with pair := c.pair.set x { c.pair.link x with
      ref_count := (c.pair.link x).ref_count + 1 } } : Ctx W).pair.link x).deleted = false := by
    simpa using alive
  simp only [hold, incRef, Exec.holds_bind, holds_link alive, holds_put, holds_link there,
    Pair.link_set, Pair.set_set]
  have temps := good.temps x
  refine ⟨good.rebased ((good.owned x).hold alive) rfl rfl rfl ?_ ?_ rfl rfl rfl rfl rfl rfl ?_, ?_⟩
  · simp [temps]
  · simp
  · exact fun live => live.congr rfl rfl rfl rfl rfl rfl
  · exact (Side.forall_iff x).mpr ⟨by simp, by simp⟩

theorem Owned.isOpen_eq {this that : Link} (owned : Owned this that) :
    this.events.isSome = this.isOpen := by
  rw [owned.events]
  cases this.isOpen <;> rfl

theorem Owned.release {this that : Link} (owned : Owned this that) (held : 0 < this.temps)
    (more : this.ref_count ≠ 1) :
    Owned { this with ref_count := this.ref_count - 1, temps := this.temps - 1 } that := by
  have refs := owned.refs
  have alive : this.deleted = false := by
    apply Bool.eq_false_iff.mpr
    intro deleted
    have := owned.deleted.mp deleted
    omega
  refine ⟨?_, ?_, owned.registered, owned.events, owned.removes, owned.closes, owned.deletes,
    owned.readEnd, owned.writeEnd, owned.ends⟩
  · change this.ref_count - 1 = this.event_loop.toNat + that.isOpen.toNat + (this.temps - 1)
    omega
  · change this.deleted = true ↔ this.ref_count - 1 = 0
    simp only [alive, Bool.false_eq_true, false_iff]
    omega

/-- The last reference goes: nothing is left that could refer to the handler. -/
theorem Owned.last {this that : Link} (owned : Owned this that) (held : 0 < this.temps)
    (last : this.ref_count = 1) : this.event_loop = false ∧ this.isOpen = false ∧
      that.isOpen = false ∧ this.temps = 1 ∧ this.deleted = false := by
  have refs := owned.refs
  have unregistered : this.event_loop = false := by
    cases flag : this.event_loop with
    | false => rfl
    | true =>
        rw [flag, Bool.toNat_true] at refs
        omega
  have closed : that.isOpen = false := by
    cases flag : that.isOpen with
    | false => rfl
    | true =>
        rw [flag, Bool.toNat_true] at refs
        omega
  rw [unregistered, closed] at refs
  refine ⟨unregistered, owned.registered.symm.trans unregistered, closed, ?_, ?_⟩
  · simp only [Bool.toNat_false] at refs
    omega
  · apply Bool.eq_false_iff.mpr
    intro deleted
    have := owned.deleted.mp deleted
    omega

theorem Owned.delete {this that : Link} (owned : Owned this that) (held : 0 < this.temps)
    (last : this.ref_count = 1) :
    Owned { this with
      ref_count := this.ref_count - 1
      temps := this.temps - 1
      out := this.out.destroy
      deleted := true
      deletes := this.deletes + 1 } that := by
  obtain ⟨unregistered, closed, thatClosed, one, alive⟩ := owned.last held last
  have deletes := owned.deletes
  refine ⟨?_, ?_, owned.registered, owned.events, owned.removes, owned.closes, ?_, ?_, ?_, ?_⟩
  · simp [last, unregistered, thatClosed, one]
  · simp [last]
  · simp [deletes, alive]
  · change this.out.readCloses + this.out.readEnd.toNat + 0 = 1
    exact owned.readEnd
  · change this.out.writeCloses + this.out.writeEnd.toNat + 0 = 1
    exact owned.writeEnd
  · exact fun _ => ⟨rfl, rfl⟩

/-- Dropping the last reference. -/
theorem holds_decRef_last {onStop : Stop → Ctx W → Prop} {post : PUnit → Ctx W → Prop} {c : Ctx W}
    {x : Side} (alive : (c.pair.link x).deleted = false) (last : (c.pair.link x).ref_count = 1)
    (closed : (c.pair.link x).readable = false ∧ (c.pair.link x).writable = false)
    (unregistered : (c.pair.link x).event_loop = false) :
    Holds (decRef x) onStop post c ↔ post ⟨⟩ { c with
      pair := c.pair.set x { c.pair.link x with
        ref_count := (c.pair.link x).ref_count - 1
        out := (c.pair.link x).out.destroy
        deleted := true
        deletes := (c.pair.link x).deletes + 1 } } := by
  have positive : 0 < (c.pair.link x).ref_count := by omega
  have none : (c.pair.link x).ref_count - 1 = 0 := by omega
  have there : (({ c with pair := c.pair.set x { c.pair.link x with
      ref_count := (c.pair.link x).ref_count - 1 } } : Ctx W).pair.link x).deleted = false := by
    simpa using alive
  simp only [decRef, delete, Exec.holds_bind, holds_link alive, holds_check positive, holds_put,
    if_pos none, holds_link there]
  rw [holds_check (by simpa using closed), holds_check (by simpa using unregistered),
    holds_check (by simpa using none), Pair.set_set, Pair.link_set]

theorem release_spec {f : Frame} {c : Ctx W} {x : Side} (good : Good f c)
    (held : 0 < f.temps x) :
    Holds (release x) (fun _ _ => False) (fun _ d => Good (f.release x) d) c := by
  have alive := good.alive held
  have temps := good.temps x
  have owned := good.owned x
  have refs := owned.refs
  rw [← temps] at held
  simp only [release, Exec.holds_bind, holds_link alive, holds_put]
  by_cases last : (c.pair.link x).ref_count = 1
  · obtain ⟨unregistered, closed, thatClosed, _, _⟩ := owned.last held last
    have flags := Bool.or_eq_false_iff.mp closed
    rw [holds_decRef_last (by simpa using alive) (by simpa using last) (by simpa using flags)
      (by simpa using unregistered), Pair.link_set, Pair.set_set]
    refine good.rebased (owned.delete held last) rfl rfl rfl ?_ ?_ rfl rfl rfl rfl rfl rfl ?_
    · simp [temps]
    · simp
    · intro live
      have source : (c.pair.link x.other).readable = false := (Bool.or_eq_false_iff.mp thatClosed).1
      refine ⟨?_, ?_, live.halfClose, live.counted, live.bytes, live.ended, live.drained⟩
      · intro readable
        rw [source] at readable
        cases readable
      · intro stillWritable
        exact absurd stillWritable (by simp [flags.2])
  · have more : 2 ≤ (c.pair.link x).ref_count := by omega
    rw [holds_decRef (by simpa using alive) (by simpa using more), Pair.link_set, Pair.set_set]
    refine good.rebased (owned.release held last) rfl rfl rfl ?_ ?_ rfl rfl rfl rfl rfl rfl ?_
    · simp [temps]
    · simp
    · exact fun live => live.congr rfl rfl rfl rfl rfl rfl

/-- An execution that may only pause or stop because a deadline has overflowed, with a pair that is
as it should be and any references to it held. -/
def pausesGood (f : Frame) : Stop → Ctx W → Prop
  | .pause, c => ∃ temps, Good (f.withTemps temps) c
  | .unsorted, c => ∃ temps, overflows (f.withTemps temps) .unsorted c
  | _, _ => False

theorem pausesGood_of_never {f : Frame} (why : Stop) (c : Ctx W) (never : False) :
    pausesGood f why c := never.elim

theorem pausesGood_of_pauses {f : Frame} {temps : Side → ℕ} (why : Stop) (c : Ctx W)
    (pauses : pausesIn (Good (f.withTemps temps)) why c) : pausesGood f why c := by
  cases why with
  | pause => exact ⟨temps, pauses⟩
  | check | unsorted | freed => exact pauses.elim

theorem pausesGood_of_overflows {f : Frame} {temps : Side → ℕ} (why : Stop) (c : Ctx W)
    (stopped : overflows (f.withTemps temps) why c) : pausesGood f why c := by
  obtain ⟨rfl, good, large⟩ := stopped
  exact ⟨temps, rfl, good, large⟩

@[simp] theorem Frame.release_hold (f : Frame) (x : Side) : (f.hold x).release x = f := by
  have temps : (fun y => if y = x then (f.hold x).temps y - 1 else (f.hold x).temps y) =
      f.temps := by
    funext y
    by_cases same : y = x <;> simp [hold, withTemps, same]
  rw [release, temps]
  rfl

theorem Frame.hold_self (f : Frame) (x : Side) : (f.hold x).temps x = f.temps x + 1 := by
  simp [hold, withTemps]

theorem Frame.hold_le (f : Frame) (x y : Side) : f.temps y ≤ (f.hold x).temps y := by
  by_cases same : y = x <;> simp [hold, withTemps, same]

theorem refresh_spec (k : Kernel W) {f : Frame} {c : Ctx W} (x : Side) (good : Good f c)
    (held : 0 < f.temps x) :
    Holds (refresh k x) (overflows f) (fun _ d => Good f d) c := by
  have alive := good.alive held
  simp only [refresh, Exec.holds_bind, holds_link alive]
  split
  · rename_i isOpen
    exact refreshLoop_spec k good alive isOpen
  · exact good

/-- A link that is not closed keeps the other one from being deleted. -/
theorem Held.other_alive {f : Frame} {c : Ctx W} {x : Side} (held : Held f c)
    (isOpen : (c.pair.link x).isOpen = true) : (c.pair.link x.other).deleted = false := by
  have owned := held.owned x.other
  have refs := owned.refs
  rw [Side.other_other, isOpen, Bool.toNat_true] at refs
  apply Bool.eq_false_iff.mpr
  intro deleted
  have := owned.deleted.mp deleted
  omega

/-- `OnEvent` of a link that is registered, called with a reference to the link held. -/
theorem onEvent_spec (k : Kernel W) {f : Frame} {c : Ctx W} (fuel : ℕ) (x : Side)
    (events : Events) (leftFirst : Bool) (good : Good f c) (held : 0 < f.temps x)
    (isOpen : (c.pair.link x).isOpen = true) :
    Holds (onEvent k fuel x events leftFirst) (pausesGood f) (fun _ d => Good f d) c := by
  have heldHere : 0 < (f.hold x.other).temps x := Nat.lt_of_lt_of_le held (f.hold_le _ _)
  have heldThere : 0 < (f.hold x.other).temps x.other := by
    rw [Frame.hold_self]
    exact Nat.succ_pos _
  have busy : ∀ y, 0 < (f.hold x.other).temps y := (Side.forall_iff x).mpr ⟨heldHere, heldThere⟩
  have finish : ∀ {d : Ctx W}, Good (f.hold x.other) d →
      Holds (do release (← other x)) (pausesGood f) (fun _ e => Good f e) d := by
    intro d goodD
    simp only [Exec.holds_bind, holds_other (goodD.alive heldHere) goodD.linked]
    refine (release_spec goodD heldThere).mono pausesGood_of_never ?_
    intro _ e goodE
    rwa [Frame.release_hold] at goodE
  simp only [onEvent, Exec.holds_bind, holds_other (good.alive held) good.linked]
  refine (hold_spec good (good.other_alive isOpen)).mono pausesGood_of_never ?_
  rintro _ d ⟨goodD, _⟩
  refine (process_spec k fuel x events leftFirst goodD busy).mono pausesGood_of_pauses ?_
  intro active e goodE
  cases active with
  | false => simpa using finish goodE
  | true =>
      simp only [↓reduceIte, Exec.holds_bind]
      refine (refresh_spec k x goodE heldHere).mono pausesGood_of_overflows ?_
      intro _ g goodG
      simp only [holds_other (goodG.alive heldHere) goodG.linked]
      refine (refresh_spec k x.other goodG heldThere).mono pausesGood_of_overflows ?_
      intro _ h goodH
      simpa using finish goodH

theorem onTimeout_spec (k : Kernel W) {f : Frame} {c : Ctx W} (x : Side) (good : Good f c)
    (held : 0 < f.temps x) (isOpen : (c.pair.link x).isOpen = true) :
    Holds (onTimeout k x) (fun _ _ => False) (fun _ d => Good f d) c := by
  have heldHere : 0 < (f.hold x.other).temps x := Nat.lt_of_lt_of_le held (f.hold_le _ _)
  have heldThere : 0 < (f.hold x.other).temps x.other := by
    rw [Frame.hold_self]
    exact Nat.succ_pos _
  simp only [onTimeout, Exec.holds_bind, holds_other (good.alive held) good.linked]
  refine (hold_spec good (good.other_alive isOpen)).mono (fun _ _ never => never) ?_
  rintro _ d ⟨goodD, _⟩
  refine (terminate_spec k x goodD.toHeld ((Side.forall_iff x).mpr ⟨heldHere, heldThere⟩)
    goodD.sent).mono (fun _ _ never => never) ?_
  intro _ e goodE
  simp only [holds_other (goodE.alive heldHere) goodE.linked]
  refine (release_spec goodE heldThere).mono (fun _ _ never => never) ?_
  intro _ g goodG
  rwa [Frame.release_hold] at goodG

theorem dispatch_spec (k : Kernel W) {f : Frame} {c : Ctx W} (fuel : ℕ) (x : Side)
    (events : Events) (leftFirst : Bool) (good : Good f c) (held : 0 < f.temps x) :
    Holds (dispatch k fuel x events leftFirst) (pausesGood f)
      (fun _ d => Good (f.release x) d) c := by
  have finish : ∀ {d : Ctx W}, Good f d →
      Holds (release x) (pausesGood f) (fun _ e => Good (f.release x) e) d :=
    fun goodD => (release_spec goodD held).mono pausesGood_of_never fun _ _ released => released
  simp only [dispatch, Exec.holds_bind, holds_link (good.alive held)]
  split
  · rename_i registered
    have isOpen := (good.owned x).registered.symm.trans registered
    simp only [Exec.holds_bind]
    refine (onEvent_spec k fuel x events leftFirst good held isOpen).mono
      (fun _ _ stopped => stopped) ?_
    exact fun _ d goodD => finish goodD
  · exact finish good

theorem expire_spec (k : Kernel W) {f : Frame} {c : Ctx W} (x : Side) (good : Good f c)
    (alive : (c.pair.link x).deleted = false) (registered : (c.pair.link x).event_loop = true) :
    Holds (expire k x) (pausesGood f) (fun _ d => Good f d) c := by
  have held : 0 < (f.hold x).temps x := by
    rw [Frame.hold_self]
    exact Nat.succ_pos _
  have isOpen := (good.owned x).registered.symm.trans registered
  simp only [expire, Exec.holds_bind, holds_link alive, holds_check registered]
  refine (hold_spec good alive).mono pausesGood_of_never ?_
  rintro _ d ⟨goodD, events⟩
  have stillOpen : (d.pair.link x).isOpen = true := by
    rw [← (goodD.owned x).isOpen_eq, events, (good.owned x).isOpen_eq]
    exact isOpen
  refine (onTimeout_spec k x goodD held stillOpen).mono pausesGood_of_never ?_
  intro _ e goodE
  have finish : ∀ {g : Ctx W}, Good (f.hold x) g →
      Holds (release x) (pausesGood f) (fun _ h => Good f h) g := by
    intro g goodG
    refine (release_spec goodG held).mono pausesGood_of_never ?_
    intro _ h goodH
    rwa [Frame.release_hold] at goodH
  rw [holds_link (goodE.alive held)]
  split
  · rename_i registered
    have isOpen := (goodE.owned x).registered.symm.trans registered
    simp only [Exec.holds_bind]
    refine (refreshLoop_spec k goodE (goodE.alive held) isOpen).mono pausesGood_of_overflows ?_
    exact fun _ g goodG => finish goodG
  · exact finish goodE

end Hcproxy.Forwarder
