import Mathlib.Data.List.Infix
import Hcproxy.ForwarderLinks

set_option autoImplicit false

namespace Hcproxy.Forwarder

open Exec (Holds)

variable {W : Type}

def Link.isOpen (l : Link) : Bool := l.readable || l.writable

/-- What the fd of a link is registered for. -/
def mask : (readable writable : Bool) → Events
  | true, true => EPOLLIN ||| EPOLLOUT ||| EPOLLET
  | true, false => EPOLLIN ||| EPOLLET
  | false, true => EPOLLOUT ||| EPOLLET
  | false, false => EPOLLET

/-- The references to a link, and what has been given up of what it owns. -/
structure Owned (this that : Link) : Prop where
  refs : this.ref_count = this.event_loop.toNat + that.isOpen.toNat + this.temps
  deleted : this.deleted = true ↔ this.ref_count = 0
  registered : this.event_loop = this.isOpen
  events : this.events = if this.isOpen then some (mask this.readable this.writable) else none
  removes : this.removes + this.isOpen.toNat = 1
  closes : this.closes + this.isOpen.toNat = 1
  deletes : this.deletes = this.deleted.toNat
  readEnd : this.out.readCloses + this.out.readEnd.toNat = 1
  writeEnd : this.out.writeCloses + this.out.writeEnd.toNat = 1
  ends : this.deleted = true → this.out.readEnd = false ∧ this.out.writeEnd = false

/-- What a socket may have been sent and what is left of it in the pipe, whatever has become of the
pair. -/
structure Sent (greeting : Bytes) (this that : Link) : Prop where
  bounded : this.out.size ≤ this.out.capacity
  sound : this.delivered <+: greeting ++ that.received
  finished : this.finished = true → this.writable = false ∧ that.readable = false ∧
    that.eof = true ∧ this.delivered = greeting ++ that.received

/-- The direction from `that` to `this`, while neither has been terminated. -/
structure Live (greeting : Bytes) (this that : Link) : Prop where
  writeEnd : that.readable = true → this.out.writeEnd = true
  readEnd : this.writable = true → this.out.readEnd = true
  halfClose : this.writable = false → that.readable = false
  counted : this.out.size = this.out.content.length
  bytes : this.delivered ++ this.out.content = greeting ++ that.received
  ended : that.readable = false → that.eof = true
  drained : this.writable = false → this.out.content = []

/-- What is sent to a socket before anything that was read from the other one. -/
def greeting : Side → Bytes
  | .client => kResponse
  | .server => []

/-- What a call of a method of a pair leaves alone: the number of handlers of other pairs that are
registered, their nodes in `expire_`, and the references that are held during the call. -/
structure Frame where
  id : ℕ
  rest : ℕ
  foreign : List (Sock × ℤ)
  timeout : Timeout
  temps : Side → ℕ

/-- The loop and the handlers of the pair agree on what is registered. -/
structure LoopInv (f : Frame) (c : Ctx W) : Prop where
  id : c.id = f.id
  timeout : c.loop.timeout = f.timeout
  total : c.loop.total_events =
    1 + f.rest + (c.pair.link .client).event_loop.toNat + (c.pair.link .server).event_loop.toNat
  listed : ∀ x, (c.loop.expire.map Prod.fst).count (f.id, x) = (c.pair.link x).event_loop.toNat
  foreign : c.loop.expire.filter (·.1.1 ≠ f.id) = f.foreign
  deadlines : ∀ e ∈ c.loop.expire, e.2 ≤ c.clock + f.timeout.1.toInt

/-- What closing a link relies on. -/
structure Held (f : Frame) (c : Ctx W) : Prop where
  loop : LoopInv f c
  linked : c.pair.linked = true
  temps : ∀ x, (c.pair.link x).temps = f.temps x
  owned : ∀ x, Owned (c.pair.link x) (c.pair.link x.other)

/-- What holds of a pair whenever it waits for the kernel. -/
structure Good (f : Frame) (c : Ctx W) : Prop extends Held f c where
  sent : ∀ x, Sent (greeting x) (c.pair.link x) (c.pair.link x.other)
  live : c.pair.terminated = false → ∀ x, Live (greeting x) (c.pair.link x) (c.pair.link x.other)
  dead : c.pair.terminated = true → ∀ x, (c.pair.link x).isOpen = false

/-- A link that is held is there. -/
theorem Held.alive {f : Frame} {c : Ctx W} (held : Held f c) {x : Side} (busy : 0 < f.temps x) :
    (c.pair.link x).deleted = false := by
  have owned := held.owned x
  have refs := owned.refs
  have temps := held.temps x
  apply Bool.eq_false_iff.mpr
  intro deleted
  have := owned.deleted.mp deleted
  omega

/-- The sides of a pair may be counted in either order. -/
theorem registered_sum (p : Pair) (x : Side) (n : ℕ) :
    n + (p.link .client).event_loop.toNat + (p.link .server).event_loop.toNat =
      n + (p.link x).event_loop.toNat + (p.link x.other).event_loop.toNat := by
  cases x <;> simp only [Side.other]
  omega

theorem LoopInv.total_of {f : Frame} {c : Ctx W} (inv : LoopInv f c) (x : Side) :
    c.loop.total_events = 1 + f.rest + (c.pair.link x).event_loop.toNat +
      (c.pair.link x.other).event_loop.toNat := by
  rw [inv.total, registered_sum _ x]

/-- The sets of registered handlers are what matters to the loop. -/
theorem LoopInv.of_same {f : Frame} {c d : Ctx W} (inv : LoopInv f c) (id : d.id = c.id)
    (loop : d.loop = c.loop) (clock : c.clock ≤ d.clock)
    (same : ∀ x, (d.pair.link x).event_loop = (c.pair.link x).event_loop) : LoopInv f d := by
  refine ⟨id.trans inv.id, loop ▸ inv.timeout, ?_, ?_, loop ▸ inv.foreign, ?_⟩
  · rw [loop, same, same]
    exact inv.total
  · intro x
    rw [loop, same]
    exact inv.listed x
  · intro e member
    have := inv.deadlines e (loop ▸ member)
    omega

theorem erase_foreign {id : ℕ} {x : Side} (expire : List (Sock × ℤ)) :
    (EventLoop.erase expire (id, x)).filter (·.1.1 ≠ id) = expire.filter (·.1.1 ≠ id) := by
  rw [EventLoop.erase, List.filter_filter]
  apply List.filter_congr
  intro e _
  by_cases same : e.1.1 = id
  · simp [same]
  · have : e.1 ≠ (id, x) := fun eq => same (by rw [eq])
    simp [same, this]

/-- Dropping a reference that is not the last one. -/
theorem holds_decRef {onStop : Stop → Ctx W → Prop} {post : PUnit → Ctx W → Prop} {c : Ctx W}
    {x : Side} (alive : (c.pair.link x).deleted = false) (more : 2 ≤ (c.pair.link x).ref_count) :
    Holds (decRef x) onStop post c ↔ post ⟨⟩ { c with
      pair := c.pair.set x { c.pair.link x with ref_count := (c.pair.link x).ref_count - 1 } } := by
  have positive : 0 < (c.pair.link x).ref_count := by omega
  have notLast : ¬ (c.pair.link x).ref_count - 1 = 0 := by omega
  simp only [decRef, Exec.holds_bind, holds_link alive, holds_check positive, holds_put, notLast,
    ↓reduceIte]
  rfl

/-- A handler that has been removed. -/
def Link.removed (l : Link) : Link :=
  { l with
    event_loop := false
    events := none
    ref_count := l.ref_count - 1
    removes := l.removes + 1 }

theorem remove_spec (k : Kernel W) {f : Frame} {c : Ctx W} {x : Side} (inv : LoopInv f c)
    (alive : (c.pair.link x).deleted = false) (more : 2 ≤ (c.pair.link x).ref_count)
    (registered : (c.pair.link x).event_loop = true) :
    Holds (remove k x) (fun _ _ => False) (fun _ d => LoopInv f d ∧
      d.pair = c.pair.set x (c.pair.link x).removed) c := by
  have total := inv.total_of x
  have listed := inv.listed x
  rw [registered] at total listed
  have member : (c.id, x) ∈ c.loop.expire.map Prod.fst := by
    rw [inv.id]
    exact List.count_pos_iff.mp (by rw [listed]; decide)
  have positive : 0 < c.loop.total_events := by
    simp only [Bool.toNat_true] at total
    omega
  have removed : c.loop.remove (c.id, x) (c.pair.link x).toEventHandler = some
      ({ c.loop with
        expire := EventLoop.erase c.loop.expire (c.id, x)
        total_events := c.loop.total_events - 1 },
        { (c.pair.link x).toEventHandler with event_loop := false, events := none }) := by
    rw [EventLoop.remove, if_pos ⟨registered, member, positive⟩]
  simp only [remove, Exec.holds_bind, holds_link alive, holds_ctx, removed, holds_setCtx,
    holds_call]
  rw [holds_decRef (by simpa using alive) (by simpa using more)]
  refine ⟨⟨inv.id, inv.timeout, ?_, ?_, ?_, ?_⟩, by simp [Link.removed]⟩
  · rw [registered_sum _ x]
    simp only [Pair.link_set, Pair.link_other_set, Bool.toNat_false]
    simp only [Bool.toNat_true] at total
    omega
  · refine (Side.forall_iff x).mpr ⟨?_, ?_⟩
    · simp only [inv.id, EventLoop.count_erase_self, Pair.link_set, Bool.toNat_false]
    · have different : (f.id, x.other) ≠ (f.id, x) := by simp
      simp only [inv.id, EventLoop.count_erase_other _ different, Pair.link_other_set]
      exact inv.listed x.other
  · rw [inv.id, erase_foreign]
    exact inv.foreign
  · exact fun e member => inv.deadlines e (EventLoop.mem_of_mem_erase member)

/-- A link that has been closed. -/
def Link.closed (l : Link) : Link :=
  { l with
    readable := false
    writable := false
    event_loop := false
    events := none
    ref_count := l.ref_count - 1
    removes := l.removes + 1
    closes := l.closes + 1 }

/-- A link that has lost a reference. -/
def Link.unref (l : Link) : Link := { l with ref_count := l.ref_count - 1 }

theorem Owned.closed {this that : Link} (owned : Owned this that) (isOpen : this.isOpen = true)
    (held : 0 < this.temps) : Owned this.closed that.unref := by
  have refs := owned.refs
  have registered := owned.registered
  have removes := owned.removes
  have closes := owned.closes
  rw [registered, isOpen] at refs
  rw [isOpen] at removes closes
  simp only [Bool.toNat_true] at refs removes closes
  have alive : this.deleted = false := by
    apply Bool.eq_false_iff.mpr
    intro deleted
    have := owned.deleted.mp deleted
    omega
  refine ⟨?_, ?_, rfl, rfl, ?_, ?_, owned.deletes, owned.readEnd, owned.writeEnd, owned.ends⟩
  · change this.ref_count - 1 = 0 + that.isOpen.toNat + this.temps
    omega
  · change this.deleted = true ↔ this.ref_count - 1 = 0
    rw [alive]
    constructor
    · intro impossible
      cases impossible
    · intro none
      omega
  · change this.removes + 1 + 0 = 1
    omega
  · change this.closes + 1 + 0 = 1
    omega

theorem Owned.unref {this that : Link} (owned : Owned this that) (isOpen : that.isOpen = true)
    (held : 0 < this.temps) : Owned this.unref that.closed := by
  have refs := owned.refs
  rw [isOpen] at refs
  simp only [Bool.toNat_true] at refs
  have alive : this.deleted = false := by
    apply Bool.eq_false_iff.mpr
    intro deleted
    have := owned.deleted.mp deleted
    omega
  refine ⟨?_, ?_, owned.registered, owned.events, owned.removes, owned.closes, owned.deletes,
    owned.readEnd, owned.writeEnd, owned.ends⟩
  · change this.ref_count - 1 = this.event_loop.toNat + 0 + this.temps
    omega
  · change this.deleted = true ↔ this.ref_count - 1 = 0
    rw [alive]
    constructor
    · intro impossible
      cases impossible
    · intro none
      omega

/-- What `Close` makes of a pair. -/
def Pair.close (p : Pair) (x : Side) : Pair :=
  if (p.link x).isOpen then (p.set x.other (p.link x.other).unref).set x (p.link x).closed else p

@[simp] theorem Pair.close_linked (p : Pair) (x : Side) : (p.close x).linked = p.linked := by
  unfold close
  split <;> simp

@[simp] theorem Pair.close_terminated (p : Pair) (x : Side) :
    (p.close x).terminated = p.terminated := by
  unfold close
  split <;> simp

theorem Pair.close_of_open {p : Pair} {x : Side} (isOpen : (p.link x).isOpen = true) :
    (p.close x).link x = (p.link x).closed ∧ (p.close x).link x.other = (p.link x.other).unref := by
  simp [close, isOpen]

theorem Pair.close_of_closed {p : Pair} {x : Side} (closed : (p.link x).isOpen = false) :
    p.close x = p := by
  simp [close, closed]

theorem close_spec (k : Kernel W) {f : Frame} {c : Ctx W} (x : Side) (held : Held f c)
    (busy : ∀ y, 0 < f.temps y) :
    Holds (close k x) (fun _ _ => False)
      (fun _ d => Held f d ∧ d.pair = c.pair.close x) c := by
  have alive : ∀ y, (c.pair.link y).deleted = false := fun y => held.alive (busy y)
  have this := held.owned x
  have that := held.owned x.other
  rw [Side.other_other] at that
  have thisRefs := this.refs
  have thatRefs := that.refs
  have thisHeld := held.temps x ▸ busy x
  have thatHeld := held.temps x.other ▸ busy x.other
  simp only [close, Exec.holds_bind, holds_link (alive x)]
  cases isOpen : (c.pair.link x).readable || (c.pair.link x).writable with
  | false =>
      simp only [Bool.false_eq_true, ↓reduceIte]
      exact ⟨held, by simp [Pair.close, Link.isOpen, isOpen]⟩
  | true =>
      have registered : (c.pair.link x).event_loop = true := this.registered.trans isOpen
      have opened : (c.pair.link x).isOpen = true := isOpen
      rw [registered] at thisRefs
      rw [opened] at thatRefs
      simp only [Bool.toNat_true] at thisRefs thatRefs
      simp only [↓reduceIte, Exec.holds_bind, holds_put]
      rw [holds_other (by simpa using alive x) (by simpa using held.linked)]
      rw [holds_decRef (by simpa using alive x.other) (by simp; omega)]
      refine Exec.Holds.mono (remove_spec k (f := f) ?_ ?_ ?_ ?_) (fun _ _ never => never) ?_
      · exact held.loop.of_same rfl rfl (Nat.le_refl _)
          ((Side.forall_iff x).mpr ⟨by simp, by simp⟩)
      · simpa using alive x
      · simp
        omega
      · simpa using registered
      · rintro _ d ⟨inv, pair⟩
        have after : (d.pair.set x { d.pair.link x with closes := (d.pair.link x).closes + 1 }) =
            c.pair.close x := by
          rw [pair]
          simp only [Pair.link_set, Pair.link_other_set, Pair.link_set_other, Pair.set_set,
            Pair.set_other_set, Pair.close, opened, ↓reduceIte]
          rfl
        have there : (d.pair.link x).deleted = false := by
          rw [pair]
          simpa [Link.removed] using alive x
        obtain ⟨closed, unref⟩ := Pair.close_of_open opened
        simp only [holds_link there, holds_call, after]
        refine ⟨⟨inv.of_same rfl rfl (Nat.le_refl _) ?_, ?_, ?_, ?_⟩, trivial⟩
        · refine (Side.forall_iff x).mpr ⟨?_, ?_⟩
          · simp only [closed, pair, Pair.link_set]
            rfl
          · simp only [unref, pair, Pair.link_set, Pair.link_other_set]
            rfl
        · simpa using held.linked
        · refine (Side.forall_iff x).mpr ⟨?_, ?_⟩
          · rw [closed]
            exact held.temps x
          · rw [unref]
            exact held.temps x.other
        · refine (Side.forall_iff x).mpr ⟨?_, ?_⟩
          · rw [closed, unref]
            exact this.closed opened thisHeld
          · rw [Side.other_other, closed, unref]
            exact that.unref opened thatHeld

/-- A link of which nothing changes but that it may be closed. -/
structure Link.Shrinks (l m : Link) : Prop where
  size : m.out.size = l.out.size
  capacity : m.out.capacity = l.out.capacity
  delivered : m.delivered = l.delivered
  received : m.received = l.received
  eof : m.eof = l.eof
  finished : m.finished = l.finished
  readable : l.readable = false → m.readable = false
  writable : l.writable = false → m.writable = false

theorem Link.Shrinks.trans {l m n : Link} (first : l.Shrinks m) (second : m.Shrinks n) :
    l.Shrinks n :=
  ⟨second.size.trans first.size, second.capacity.trans first.capacity,
    second.delivered.trans first.delivered, second.received.trans first.received,
    second.eof.trans first.eof, second.finished.trans first.finished,
    fun closed => second.readable (first.readable closed),
    fun closed => second.writable (first.writable closed)⟩

theorem Link.Shrinks.closed {l m : Link} (shrinks : l.Shrinks m) (closed : l.isOpen = false) :
    m.isOpen = false := by
  obtain ⟨readable, writable⟩ := Bool.or_eq_false_iff.mp closed
  simp [Link.isOpen, shrinks.readable readable, shrinks.writable writable]

theorem Sent.shrinks {greeting : Bytes} {this that this' that' : Link}
    (sent : Sent greeting this that) (here : this.Shrinks this') (there : that.Shrinks that') :
    Sent greeting this' that' := by
  refine ⟨?_, ?_, ?_⟩
  · rw [here.size, here.capacity]
    exact sent.bounded
  · rw [here.delivered, there.received]
    exact sent.sound
  · intro finished
    obtain ⟨writable, readable, eof, all⟩ := sent.finished (here.finished.symm.trans finished)
    refine ⟨here.writable writable, there.readable readable, there.eof.trans eof, ?_⟩
    rw [here.delivered, there.received]
    exact all

theorem Pair.close_shrinks (p : Pair) (x : Side) :
    ∀ y, (p.link y).Shrinks ((p.close x).link y) := by
  cases isOpen : (p.link x).isOpen with
  | false =>
      rw [Pair.close_of_closed isOpen]
      exact fun y => ⟨rfl, rfl, rfl, rfl, rfl, rfl, id, id⟩
  | true =>
      obtain ⟨closed, unref⟩ := Pair.close_of_open isOpen
      refine (Side.forall_iff x).mpr ⟨?_, ?_⟩
      · rw [closed]
        exact ⟨rfl, rfl, rfl, rfl, rfl, rfl, fun _ => rfl, fun _ => rfl⟩
      · rw [unref]
        exact ⟨rfl, rfl, rfl, rfl, rfl, rfl, id, id⟩

theorem Pair.close_closes (p : Pair) (x : Side) : ((p.close x).link x).isOpen = false := by
  cases isOpen : (p.link x).isOpen with
  | false => rw [Pair.close_of_closed isOpen, isOpen]
  | true =>
      rw [(Pair.close_of_open isOpen).1]
      rfl

theorem terminate_spec (k : Kernel W) {f : Frame} {c : Ctx W} (x : Side) (held : Held f c)
    (busy : ∀ y, 0 < f.temps y)
    (sent : ∀ y, Sent (greeting y) (c.pair.link y) (c.pair.link y.other)) :
    Holds (terminate k x) (fun _ _ => False) (fun _ d => Good f d) c := by
  simp only [terminate, Exec.holds_bind, holds_ctx, holds_setCtx]
  have marked : Held f { c with pair := { c.pair with terminated := true } } := by
    refine ⟨held.loop.of_same rfl rfl (Nat.le_refl _) ?_, held.linked, ?_, ?_⟩
    · exact fun y => by cases y <;> rfl
    · intro y
      cases y
      · exact held.temps .client
      · exact held.temps .server
    · intro y
      cases y
      · exact held.owned .client
      · exact held.owned .server
  refine (close_spec k x marked busy).mono (fun _ _ never => never) ?_
  rintro _ d ⟨heldD, pairD⟩
  rw [holds_other (heldD.alive (busy x)) heldD.linked]
  refine (close_spec k x.other heldD busy).mono (fun _ _ never => never) ?_
  rintro _ e ⟨heldE, pairE⟩
  have terminated : e.pair.terminated = true := by
    rw [pairE, Pair.close_terminated, pairD, Pair.close_terminated]
  have shrinks : ∀ y, (c.pair.link y).Shrinks (e.pair.link y) := by
    intro y
    have first := Pair.close_shrinks { c.pair with terminated := true } x y
    have second := Pair.close_shrinks d.pair x.other y
    rw [← pairD] at first
    rw [← pairE] at second
    refine Link.Shrinks.trans ?_ second
    cases y <;> exact first
  refine ⟨heldE, ?_, ?_, ?_⟩
  · exact fun y => (sent y).shrinks (shrinks y) (shrinks y.other)
  · intro running
    rw [terminated] at running
    cases running
  · intro _
    refine (Side.forall_iff x).mpr ⟨?_, ?_⟩
    · have closed := Pair.close_closes { c.pair with terminated := true } x
      have second := Pair.close_shrinks d.pair x.other x
      rw [← pairD] at closed
      rw [← pairE] at second
      exact second.closed closed
    · rw [pairE]
      exact Pair.close_closes d.pair x.other

end Hcproxy.Forwarder
