import Hcproxy.ForwarderInvariant

set_option autoImplicit false

namespace Hcproxy.Forwarder

open Exec (Holds)

variable {W : Type}

/-- A link that is used, but neither closed nor referred to by more or fewer. -/
structure Link.Kept (l m : Link) : Prop where
  base : m.toEventHandler = l.toEventHandler
  readable : m.readable = l.readable
  writable : m.writable = l.writable
  deleted : m.deleted = l.deleted
  removes : m.removes = l.removes
  closes : m.closes = l.closes
  deletes : m.deletes = l.deletes
  temps : m.temps = l.temps
  readEnd : m.out.readCloses + m.out.readEnd.toNat = l.out.readCloses + l.out.readEnd.toNat
  writeEnd : m.out.writeCloses + m.out.writeEnd.toNat = l.out.writeCloses + l.out.writeEnd.toNat
  ends : (l.out.readEnd = false → m.out.readEnd = false) ∧
    (l.out.writeEnd = false → m.out.writeEnd = false)

theorem Link.Kept.refl (l : Link) : l.Kept l :=
  ⟨rfl, rfl, rfl, rfl, rfl, rfl, rfl, rfl, rfl, rfl, id, id⟩

theorem Link.Kept.isOpen {l m : Link} (kept : l.Kept m) : m.isOpen = l.isOpen := by
  simp [Link.isOpen, kept.readable, kept.writable]

theorem Owned.kept {this that this' : Link} {that' : Link} (owned : Owned this that)
    (here : this.Kept this') (there : that'.isOpen = that.isOpen) : Owned this' that' := by
  have isOpen := here.isOpen
  refine ⟨?_, ?_, ?_, ?_, ?_, ?_, ?_, ?_, ?_, ?_⟩
  · rw [here.base, there, here.temps]
    exact owned.refs
  · rw [here.deleted, here.base]
    exact owned.deleted
  · rw [here.base, isOpen]
    exact owned.registered
  · rw [here.base, isOpen, here.readable, here.writable]
    exact owned.events
  · rw [here.removes, isOpen]
    exact owned.removes
  · rw [here.closes, isOpen]
    exact owned.closes
  · rw [here.deletes, here.deleted]
    exact owned.deletes
  · exact here.readEnd.trans owned.readEnd
  · exact here.writeEnd.trans owned.writeEnd
  · intro deleted
    obtain ⟨readEnd, writeEnd⟩ := owned.ends (here.deleted.symm.trans deleted)
    exact ⟨here.ends.1 readEnd, here.ends.2 writeEnd⟩

theorem Held.kept {f : Frame} {c d : Ctx W} (held : Held f c) (id : d.id = c.id)
    (loop : d.loop = c.loop) (clock : c.clock ≤ d.clock) (linked : d.pair.linked = c.pair.linked)
    (kept : ∀ y, (c.pair.link y).Kept (d.pair.link y)) : Held f d := by
  refine ⟨held.loop.of_same id loop clock ?_, linked.trans held.linked, ?_, ?_⟩
  · exact fun y => by rw [(kept y).base]
  · exact fun y => (kept y).temps.trans (held.temps y)
  · exact fun y => (held.owned y).kept (kept y) (kept y.other).isOpen

/-- A link that stays open in one direction, and is registered for that. -/
def Link.halved (l : Link) (readable writable : Bool) : Link :=
  { l with readable, writable, events := some (mask readable writable) }

theorem Owned.halved {this that : Link} (owned : Owned this that) (isOpen : this.isOpen = true)
    {readable writable : Bool} (still : (readable || writable) = true) :
    Owned (this.halved readable writable) that := by
  have after : (this.halved readable writable).isOpen = true := still
  have removes := owned.removes
  have closes := owned.closes
  rw [isOpen] at removes closes
  refine ⟨owned.refs, owned.deleted, ?_, ?_, ?_, ?_, owned.deletes, owned.readEnd, owned.writeEnd,
    owned.ends⟩
  · rw [after, ← isOpen]
    exact owned.registered
  · rw [after]
    rfl
  · rw [after]
    exact removes
  · rw [after]
    exact closes

/-- Two links that are alike in what they carry. -/
structure Link.Alike (l m : Link) : Prop where
  out : m.out = l.out
  readable : m.readable = l.readable
  writable : m.writable = l.writable
  received : m.received = l.received
  delivered : m.delivered = l.delivered
  eof : m.eof = l.eof
  finished : m.finished = l.finished

theorem Link.Alike.refl (l : Link) : l.Alike l := ⟨rfl, rfl, rfl, rfl, rfl, rfl, rfl⟩

theorem Live.congr {greeting : Bytes} {this that this' that' : Link}
    (live : Live greeting this that) (out : this'.out = this.out)
    (writable : this'.writable = this.writable) (delivered : this'.delivered = this.delivered)
    (readable : that'.readable = that.readable) (received : that'.received = that.received)
    (eof : that'.eof = that.eof) : Live greeting this' that' := by
  refine ⟨?_, ?_, ?_, ?_, ?_, ?_, ?_⟩
  · rw [readable, out]
    exact live.writeEnd
  · rw [writable, out]
    exact live.readEnd
  · rw [writable, readable]
    exact live.halfClose
  · rw [out]
    exact live.counted
  · rw [delivered, out, received]
    exact live.bytes
  · rw [readable, eof]
    exact live.ended
  · rw [writable, out]
    exact live.drained

theorem Sent.congr {greeting : Bytes} {this that this' that' : Link}
    (sent : Sent greeting this that) (size : this'.out.size = this.out.size)
    (capacity : this'.out.capacity = this.out.capacity)
    (writable : this'.writable = this.writable)
    (delivered : this'.delivered = this.delivered) (finished : this'.finished = this.finished)
    (readable : that'.readable = that.readable) (received : that'.received = that.received)
    (eof : that'.eof = that.eof) : Sent greeting this' that' := by
  refine ⟨?_, ?_, ?_⟩
  · rw [size, capacity]
    exact sent.bounded
  · rw [delivered, received]
    exact sent.sound
  · rw [finished, writable, readable, eof, delivered, received]
    exact sent.finished

/-- Two links that are alike carry the same. -/
theorem Live.alike {greeting : Bytes} {this that this' that' : Link}
    (live : Live greeting this that) (here : this.Alike this') (there : that.Alike that') :
    Live greeting this' that' :=
  live.congr here.out here.writable here.delivered there.readable there.received there.eof

theorem Sent.alike {greeting : Bytes} {this that this' that' : Link}
    (sent : Sent greeting this that) (here : this.Alike this') (there : that.Alike that') :
    Sent greeting this' that' :=
  sent.congr (by rw [here.out]) (by rw [here.out]) here.writable here.delivered here.finished
    there.readable there.received there.eof

theorem Held.halved {f : Frame} {c : Ctx W} {x : Side} (held : Held f c)
    (isOpen : (c.pair.link x).isOpen = true) {readable writable : Bool}
    (still : (readable || writable) = true) (world : W) :
    Held f { c with
      world, pair := c.pair.set x ((c.pair.link x).halved readable writable) } := by
  refine ⟨held.loop.of_same rfl rfl (Nat.le_refl _) ?_, ?_, ?_, ?_⟩
  · refine (Side.forall_iff x).mpr ⟨?_, ?_⟩
    · simp [Link.halved]
    · simp
  · simpa using held.linked
  · refine (Side.forall_iff x).mpr ⟨?_, ?_⟩
    · simpa [Link.halved] using held.temps x
    · simpa using held.temps x.other
  · refine (Side.forall_iff x).mpr ⟨?_, ?_⟩
    · simp only [Pair.link_set, Pair.link_other_set]
      exact (held.owned x).halved isOpen still
    · have that := held.owned x.other
      simp only [Side.other_other, Pair.link_set, Pair.link_other_set] at that ⊢
      exact that.kept (.refl _) (by rw [isOpen]; exact still)

/-- `Modify` of a link whose flags have just been changed. -/
theorem modify_spec (k : Kernel W) {f : Frame} {c : Ctx W} {x : Side} (events : Events)
    {onStop : Stop → Ctx W → Prop} {post : PUnit → Ctx W → Prop} (inv : LoopInv f c)
    (alive : (c.pair.link x).deleted = false)
    (registered : (c.pair.link x).event_loop = true)
    (holds : ∀ world, post ⟨⟩ { c with
      world, pair := c.pair.set x { c.pair.link x with events := some events } }) :
    Holds (modify k x events) onStop post c := by
  have total := inv.total_of x
  have positive : 0 < c.loop.total_events := by omega
  have modified : c.loop.modify (c.pair.link x).toEventHandler events =
      some { (c.pair.link x).toEventHandler with events := some events } := by
    rw [EventLoop.modify, if_pos ⟨registered, positive⟩]
  simp only [modify, Exec.holds_bind, holds_link alive, holds_ctx, modified, holds_put, holds_call]
  exact holds _

/-- What `CloseForReading` and `CloseForWriting` leave: `m` is alike the link `x` by then. -/
structure HalfClosed (f : Frame) (c : Ctx W) (x : Side) (m : Link) (d : Ctx W) : Prop
    extends Held f d where
  terminated : d.pair.terminated = c.pair.terminated
  here : m.Alike (d.pair.link x)
  there : (c.pair.link x.other).Alike (d.pair.link x.other)

theorem closeForReading_spec (k : Kernel W) {f : Frame} {c : Ctx W} (x : Side) (held : Held f c)
    (busy : ∀ y, 0 < f.temps y) (readable : (c.pair.link x).readable = true) :
    Holds (closeForReading k x) (fun _ _ => False)
      (fun _ d => HalfClosed f c x { c.pair.link x with readable := false } d) c := by
  have alive := held.alive (busy x)
  have isOpen : (c.pair.link x).isOpen = true := by simp [Link.isOpen, readable]
  simp only [closeForReading, Exec.holds_bind, holds_link alive, holds_check readable]
  cases writable : (c.pair.link x).writable with
  | false =>
      simp only [Bool.false_eq_true, ↓reduceIte]
      refine (close_spec k x held busy).mono (fun _ _ never => never) ?_
      rintro _ d ⟨heldD, pair⟩
      obtain ⟨closed, unref⟩ := Pair.close_of_open isOpen
      refine ⟨heldD, ?_, ?_, ?_⟩
      · rw [pair, Pair.close_terminated]
      · rw [pair, closed]
        exact ⟨rfl, rfl, rfl, rfl, rfl, rfl, rfl⟩
      · rw [pair, unref]
        exact ⟨rfl, rfl, rfl, rfl, rfl, rfl, rfl⟩
  | true =>
      simp only [↓reduceIte, Exec.holds_bind, holds_put]
      refine modify_spec k (f := f) _ ?_ ?_ ?_ ?_
      · exact held.loop.of_same rfl rfl (Nat.le_refl _)
          ((Side.forall_iff x).mpr ⟨by simp, by simp⟩)
      · simpa using alive
      · simpa using (held.owned x).registered.trans isOpen
      · intro world
        simp only [holds_call, Pair.link_set, Pair.set_set]
        refine ⟨held.halved isOpen (rfl : (false || true) = true) _, by simp, ?_, ?_⟩
        · rw [Pair.link_set]
          exact ⟨rfl, rfl, rfl, rfl, rfl, rfl, rfl⟩
        · rw [Pair.link_other_set]
          exact .refl _

theorem closeForWriting_spec (k : Kernel W) {f : Frame} {c : Ctx W} (x : Side) (held : Held f c)
    (busy : ∀ y, 0 < f.temps y) (writable : (c.pair.link x).writable = true) :
    Holds (closeForWriting k x) (fun _ _ => False) (fun _ d => HalfClosed f c x
      { c.pair.link x with writable := false, finished := true } d) c := by
  have alive := held.alive (busy x)
  have isOpen : (c.pair.link x).isOpen = true := by simp [Link.isOpen, writable]
  have marked : Held f { c with
      pair := c.pair.set x { c.pair.link x with finished := true } } := by
    refine held.kept rfl rfl (Nat.le_refl _) (by simp) ((Side.forall_iff x).mpr ⟨?_, ?_⟩)
    · rw [Pair.link_set]
      exact ⟨rfl, rfl, rfl, rfl, rfl, rfl, rfl, rfl, rfl, rfl, id, id⟩
    · rw [Pair.link_other_set]
      exact .refl _
  simp only [closeForWriting, Exec.holds_bind, holds_link alive, holds_check writable, holds_put,
    holds_link (marked.alive (busy x)), Pair.link_set]
  split
  · rename_i readable
    simp only [Exec.holds_bind, holds_put, Pair.set_set]
    refine modify_spec k (f := f) _ ?_ ?_ ?_ ?_
    · exact held.loop.of_same rfl rfl (Nat.le_refl _)
        ((Side.forall_iff x).mpr ⟨by simp, by simp⟩)
    · simpa using alive
    · simpa using (held.owned x).registered.trans isOpen
    · intro world
      have heldD := marked.halved (x := x) (by rw [Pair.link_set]; exact isOpen)
        (rfl : (true || false) = true) (k.call world (c.id, x) .shutdownWrite)
      simp only [Pair.link_set, Pair.set_set] at heldD
      simp only [holds_call, Pair.link_set, Pair.set_set, readable]
      refine ⟨heldD, by simp, ?_, ?_⟩
      · rw [Pair.link_set]
        exact ⟨rfl, rfl, rfl, rfl, rfl, rfl, rfl⟩
      · rw [Pair.link_other_set]
        exact .refl _
  · rename_i notReadable
    have readable : (c.pair.link x).readable = false := Bool.eq_false_iff.mpr notReadable
    refine (close_spec k x marked busy).mono (fun _ _ never => never) ?_
    rintro _ d ⟨heldD, pair⟩
    have stillOpen : ((c.pair.set x { c.pair.link x with finished := true }).link x).isOpen =
        true := by
      rw [Pair.link_set]
      exact isOpen
    obtain ⟨closed, unref⟩ := Pair.close_of_open stillOpen
    refine ⟨heldD, ?_, ?_, ?_⟩
    · rw [pair, Pair.close_terminated, Pair.set_terminated]
    · rw [pair, closed, Pair.link_set]
      exact ⟨rfl, readable.symm, rfl, rfl, rfl, rfl, rfl⟩
    · rw [pair, unref, Pair.link_other_set]
      exact ⟨rfl, rfl, rfl, rfl, rfl, rfl, rfl⟩

/-- A pair is as it should be if both directions are. -/
theorem Good.of_directions {f : Frame} {c : Ctx W} (x : Side) (held : Held f c)
    (running : c.pair.terminated = false)
    (sent : Sent (greeting x) (c.pair.link x) (c.pair.link x.other))
    (live : Live (greeting x) (c.pair.link x) (c.pair.link x.other))
    (sentBack : Sent (greeting x.other) (c.pair.link x.other) (c.pair.link x))
    (liveBack : Live (greeting x.other) (c.pair.link x.other) (c.pair.link x)) : Good f c := by
  refine ⟨held, ?_, ?_, ?_⟩
  · exact (Side.forall_iff x).mpr ⟨sent, by rw [Side.other_other]; exact sentBack⟩
  · exact fun _ => (Side.forall_iff x).mpr ⟨live, by rw [Side.other_other]; exact liveBack⟩
  · intro terminated
    rw [running] at terminated
    cases terminated

/-- The world, the clock and what the clock says in `expire_` do not matter to a pair. -/
theorem Good.of_pair {f : Frame} {c d : Ctx W} (good : Good f c) (loop : LoopInv f d)
    (pair : d.pair = c.pair) : Good f d :=
  ⟨⟨loop, pair ▸ good.linked, pair ▸ good.temps, pair ▸ good.owned⟩, pair ▸ good.sent,
    pair ▸ good.live, pair ▸ good.dead⟩

theorem Good.of_world {f : Frame} {c : Ctx W} (good : Good f c) (world : W) :
    Good f { c with world } :=
  good.of_pair (good.loop.of_same rfl rfl (Nat.le_refl _) fun _ => rfl) rfl

/-- A link with a flag set belongs to a pair that runs. -/
theorem Good.running {f : Frame} {c : Ctx W} (good : Good f c) {x : Side}
    (isOpen : (c.pair.link x).isOpen = true) : c.pair.terminated = false := by
  apply Bool.eq_false_iff.mpr
  intro terminated
  have closed := good.dead terminated x
  rw [isOpen] at closed
  cases closed

theorem pausesIn_mono {P Q : Ctx W → Prop} (sub : ∀ c, P c → Q c) (why : Stop) (c : Ctx W)
    (stopped : pausesIn P why c) : pausesIn Q why c := by
  cases why with
  | pause => exact sub c stopped
  | check | unsorted | freed => exact stopped.elim

theorem pausesIn_of_never {P : Ctx W → Prop} (why : Stop) (c : Ctx W) (never : False) :
    pausesIn P why c := never.elim

/-- Bytes have been read from the other socket into the pipe. -/
theorem Good.filled {f : Frame} {c : Ctx W} {x : Side} (good : Good f c)
    (readable : (c.pair.link x.other).readable = true) (world : W) (bytes : Bytes)
    (fits : (c.pair.link x).out.size + bytes.length ≤ (c.pair.link x).out.capacity) :
    Good f { c with
      world
      pair := (c.pair.set x { c.pair.link x with out := { (c.pair.link x).out with
          content := (c.pair.link x).out.content ++ bytes
          size := (c.pair.link x).out.size + bytes.length } }).set
        x.other { c.pair.link x.other with
          received := (c.pair.link x.other).received ++ bytes } } := by
  have running := good.running (x := x.other) (by simp [Link.isOpen, readable])
  have live := good.live running x
  have liveBack := good.live running x.other
  have sent := good.sent x
  have sentBack := good.sent x.other
  rw [Side.other_other] at liveBack sentBack
  refine Good.of_directions x ?_ (by simpa using running) ?_ ?_ ?_ ?_
  · refine good.kept rfl rfl (Nat.le_refl _) (by simp) ((Side.forall_iff x).mpr ⟨?_, ?_⟩)
    · rw [Pair.link_set_other, Pair.link_set]
      exact ⟨rfl, rfl, rfl, rfl, rfl, rfl, rfl, rfl, rfl, rfl, id, id⟩
    · rw [Pair.link_set]
      exact ⟨rfl, rfl, rfl, rfl, rfl, rfl, rfl, rfl, rfl, rfl, id, id⟩
  all_goals simp only [Pair.link_set_other, Pair.link_set]
  · refine ⟨fits, ?_, ?_⟩
    · rw [← List.append_assoc]
      exact sent.sound.trans (List.prefix_append _ _)
    · intro finished
      have closed := (sent.finished finished).2.1
      rw [readable] at closed
      cases closed
  · refine ⟨live.writeEnd, live.readEnd, live.halfClose, ?_, ?_, live.ended, ?_⟩
    · rw [List.length_append, live.counted]
    · rw [← List.append_assoc, live.bytes, List.append_assoc]
    · intro notWritable
      have closed := live.halfClose notWritable
      rw [readable] at closed
      cases closed
  · exact sentBack.congr rfl rfl rfl rfl rfl rfl rfl rfl
  · exact liveBack.congr rfl rfl rfl rfl rfl rfl

/-- The end of the other socket's stream has been read, and that socket closed for reading. -/
theorem Good.ended {f : Frame} {c d : Ctx W} {x : Side} (good : Good f c)
    (readable : (c.pair.link x.other).readable = true) (held : Held f d)
    (terminated : d.pair.terminated = c.pair.terminated)
    (here : Link.Alike { c.pair.link x with out := (c.pair.link x).out.closeWriteEnd }
      (d.pair.link x))
    (there : Link.Alike { c.pair.link x.other with eof := true, readable := false }
      (d.pair.link x.other)) : Good f d := by
  have running := good.running (x := x.other) (by simp [Link.isOpen, readable])
  have live := good.live running x
  have liveBack := good.live running x.other
  have sent := good.sent x
  have sentBack := good.sent x.other
  rw [Side.other_other] at liveBack sentBack
  refine Good.of_directions x held (terminated.trans running) ?_ ?_ ?_ ?_
  · refine Sent.alike ?_ here there
    refine ⟨sent.bounded, sent.sound, ?_⟩
    intro finished
    obtain ⟨writable, _, _, all⟩ := sent.finished finished
    exact ⟨writable, rfl, rfl, all⟩
  · refine Live.alike ?_ here there
    refine ⟨?_, live.readEnd, fun _ => rfl, live.counted, live.bytes, fun _ => rfl, live.drained⟩
    intro impossible
    cases impossible
  · refine Sent.alike ?_ there here
    exact sentBack.congr rfl rfl rfl rfl rfl rfl rfl rfl
  · refine Live.alike ?_ there here
    exact liveBack.congr rfl rfl rfl rfl rfl rfl

/-- Closing an end of the pipe leaves a pair that can still be terminated. -/
theorem Good.broken {f : Frame} {c : Ctx W} {x : Side} (good : Good f c) (world : W) (out : Buffer)
    (size : out.size = (c.pair.link x).out.size)
    (capacity : out.capacity = (c.pair.link x).out.capacity)
    (readEnd : out.readCloses + out.readEnd.toNat =
      (c.pair.link x).out.readCloses + (c.pair.link x).out.readEnd.toNat)
    (writeEnd : out.writeCloses + out.writeEnd.toNat =
      (c.pair.link x).out.writeCloses + (c.pair.link x).out.writeEnd.toNat)
    (ends : ((c.pair.link x).out.readEnd = false → out.readEnd = false) ∧
      ((c.pair.link x).out.writeEnd = false → out.writeEnd = false)) :
    Held f { c with world, pair := c.pair.set x { c.pair.link x with out } } ∧
    ∀ y, Sent (greeting y) ((c.pair.set x { c.pair.link x with out }).link y)
      ((c.pair.set x { c.pair.link x with out }).link y.other) := by
  refine ⟨?_, ?_⟩
  · refine good.kept rfl rfl (Nat.le_refl _) (by simp) ((Side.forall_iff x).mpr ⟨?_, ?_⟩)
    · rw [Pair.link_set]
      exact ⟨rfl, rfl, rfl, rfl, rfl, rfl, rfl, rfl, readEnd, writeEnd, ends⟩
    · rw [Pair.link_other_set]
      exact .refl _
  · have sent := good.sent x
    have sentBack := good.sent x.other
    refine (Side.forall_iff x).mpr ⟨?_, ?_⟩
    · rw [Pair.link_set, Pair.link_other_set]
      exact sent.congr size capacity rfl rfl rfl rfl rfl rfl
    · rw [Side.other_other] at sentBack ⊢
      rw [Pair.link_set, Pair.link_other_set]
      exact sentBack.congr rfl rfl rfl rfl rfl rfl rfl rfl

theorem closeWriteEnd_count {b : Buffer} (writeEnd : b.writeEnd = true) :
    b.closeWriteEnd.writeCloses + b.closeWriteEnd.writeEnd.toNat =
      b.writeCloses + b.writeEnd.toNat := by
  rw [writeEnd]
  rfl

theorem closeReadEnd_count {b : Buffer} (readEnd : b.readEnd = true) :
    b.closeReadEnd.readCloses + b.closeReadEnd.readEnd.toNat =
      b.readCloses + b.readEnd.toNat := by
  rw [readEnd]
  rfl

theorem fill_spec (k : Kernel W) {f : Frame} {c : Ctx W} (x : Side) (good : Good f c)
    (busy : ∀ y, 0 < f.temps y) :
    Holds (fill k x) (pausesIn (Good f)) (fun _ d => Good f d) c := by
  have alive : ∀ y, (c.pair.link y).deleted = false := fun y => good.alive (busy y)
  simp only [fill, Exec.holds_bind, holds_other (alive x) good.linked, holds_link (alive x.other)]
  split
  · rename_i readable
    have live := good.live (good.running (x := x.other) (by simp [Link.isOpen, readable])) x
    have writeEnd := live.writeEnd readable
    simp only [Exec.holds_bind]
    refine (writeFrom_spec k alive writeEnd (good.sent x).bounded).mono
      (pausesIn_mono fun d same => same ▸ good) ?_
    intro status d wrote
    cases wrote with
    | noOp world => exact good.of_world world
    | data world bytes fits => exact good.filled readable world bytes fits
    | error world =>
        obtain ⟨held, sent⟩ := good.broken (x := x) world (c.pair.link x).out.closeWriteEnd
          rfl rfl rfl (closeWriteEnd_count writeEnd) ⟨id, fun _ => rfl⟩
        simp only [Exec.holds_bind, Exec.holds_pure]
        exact (terminate_spec k x held busy sent).mono pausesIn_of_never fun _ _ after => after
    | eof world =>
        simp only [Exec.holds_bind, Exec.holds_pure]
        refine (closeForReading_spec k (f := f) x.other ?_ busy ?_).mono pausesIn_of_never ?_
        · refine good.kept rfl rfl (Nat.le_refl _) (by simp) ((Side.forall_iff x).mpr ⟨?_, ?_⟩)
          · rw [Pair.link_set_other, Pair.link_set]
            exact ⟨rfl, rfl, rfl, rfl, rfl, rfl, rfl, rfl, rfl, closeWriteEnd_count writeEnd,
              id, fun _ => rfl⟩
          · rw [Pair.link_set]
            exact ⟨rfl, rfl, rfl, rfl, rfl, rfl, rfl, rfl, rfl, rfl, id, id⟩
        · simpa using readable
        · intro _ e closed
          have here := closed.there
          have there := closed.here
          rw [Side.other_other] at here
          simp only [Pair.link_set_other, Pair.link_set] at here there
          exact good.ended readable closed.toHeld (closed.terminated.trans (by simp)) here there
  · exact good

/-- Bytes have been moved from the pipe to the socket. -/
theorem Good.drained {f : Frame} {c : Ctx W} {x : Side} (good : Good f c)
    (writable : (c.pair.link x).writable = true) (world : W) (n : ℕ) :
    Good f { c with
      world
      pair := c.pair.set x { c.pair.link x with
        out := { (c.pair.link x).out with
          content := (c.pair.link x).out.content.drop n
          size := (c.pair.link x).out.size - n }
        delivered := (c.pair.link x).delivered ++ (c.pair.link x).out.content.take n } } := by
  have running := good.running (x := x) (by simp [Link.isOpen, writable])
  have live := good.live running x
  have liveBack := good.live running x.other
  have sent := good.sent x
  have sentBack := good.sent x.other
  rw [Side.other_other] at liveBack sentBack
  have bytes : ((c.pair.link x).delivered ++ (c.pair.link x).out.content.take n) ++
      (c.pair.link x).out.content.drop n = greeting x ++ (c.pair.link x.other).received := by
    rw [List.append_assoc, List.take_append_drop]
    exact live.bytes
  refine Good.of_directions x ?_ (by simpa using running) ?_ ?_ ?_ ?_
  · refine good.kept rfl rfl (Nat.le_refl _) (by simp) ((Side.forall_iff x).mpr ⟨?_, ?_⟩)
    · rw [Pair.link_set]
      exact ⟨rfl, rfl, rfl, rfl, rfl, rfl, rfl, rfl, rfl, rfl, id, id⟩
    · rw [Pair.link_other_set]
      exact .refl _
  all_goals simp only [Pair.link_set, Pair.link_other_set]
  · refine ⟨Nat.le_trans (Nat.sub_le _ _) sent.bounded, ⟨_, bytes⟩, ?_⟩
    intro finished
    have closed := (sent.finished finished).1
    rw [writable] at closed
    cases closed
  · refine ⟨live.writeEnd, live.readEnd, live.halfClose, ?_, bytes, live.ended, ?_⟩
    · rw [List.length_drop, live.counted]
    · intro notWritable
      rw [writable] at notWritable
      cases notWritable
  · exact sentBack.congr rfl rfl rfl rfl rfl rfl rfl rfl
  · exact liveBack.congr rfl rfl rfl rfl rfl rfl

/-- The pipe has been found empty after the end of the other socket's stream, and the socket
closed for writing. -/
theorem Good.completed {f : Frame} {c d : Ctx W} {x : Side} (good : Good f c)
    (writable : (c.pair.link x).writable = true) (empty : (c.pair.link x).out.size = 0)
    (ended : (c.pair.link x).out.writeEnd = false) (held : Held f d)
    (terminated : d.pair.terminated = c.pair.terminated)
    (here : Link.Alike { c.pair.link x with
      out := (c.pair.link x).out.closeReadEnd, writable := false, finished := true }
      (d.pair.link x))
    (there : (c.pair.link x.other).Alike (d.pair.link x.other)) : Good f d := by
  have running := good.running (x := x) (by simp [Link.isOpen, writable])
  have live := good.live running x
  have liveBack := good.live running x.other
  have sent := good.sent x
  have sentBack := good.sent x.other
  rw [Side.other_other] at liveBack sentBack
  have content : (c.pair.link x).out.content = [] :=
    List.length_eq_zero_iff.mp (live.counted.symm.trans empty)
  have notReadable : (c.pair.link x.other).readable = false := by
    apply Bool.eq_false_iff.mpr
    intro readable
    have isOpen := live.writeEnd readable
    rw [ended] at isOpen
    cases isOpen
  have all : (c.pair.link x).delivered = greeting x ++ (c.pair.link x.other).received := by
    have bytes := live.bytes
    rwa [content, List.append_nil] at bytes
  refine Good.of_directions x held (terminated.trans running) ?_ ?_ ?_ ?_
  · refine Sent.alike ?_ here there
    exact ⟨sent.bounded, sent.sound, fun _ => ⟨rfl, notReadable, live.ended notReadable, all⟩⟩
  · refine Live.alike ?_ here there
    refine ⟨live.writeEnd, ?_, fun _ => notReadable, live.counted, live.bytes, live.ended,
      fun _ => content⟩
    intro impossible
    cases impossible
  · refine Sent.alike ?_ there here
    exact sentBack.congr rfl rfl rfl rfl rfl rfl rfl rfl
  · refine Live.alike ?_ there here
    exact liveBack.congr rfl rfl rfl rfl rfl rfl

theorem drain_spec (k : Kernel W) {f : Frame} {c : Ctx W} (x : Side) (good : Good f c)
    (busy : ∀ y, 0 < f.temps y) :
    Holds (drain k x) (pausesIn (Good f)) (fun _ d => Good f d) c := by
  have alive := good.alive (busy x)
  simp only [drain, Exec.holds_bind, holds_link alive]
  split
  · rename_i writable
    have live := good.live (good.running (x := x) (by simp [Link.isOpen, writable])) x
    have readEnd := live.readEnd writable
    simp only [Exec.holds_bind]
    refine (readTo_spec k alive readEnd (good.sent x).bounded).mono
      (pausesIn_mono ?_) ?_
    · rintro d ⟨world, rfl⟩
      exact good.of_world world
    intro status d read
    cases read with
    | noOp world => exact good.of_world world
    | data world n fits => exact good.drained writable world n
    | error world wiped =>
        obtain ⟨held, sent⟩ := good.broken (x := x) world
          ((c.pair.link x).out.wipe wiped).closeReadEnd
          rfl rfl (closeReadEnd_count readEnd) rfl ⟨fun _ => rfl, id⟩
        simp only [Exec.holds_bind, Exec.holds_pure]
        exact (terminate_spec k x held busy sent).mono pausesIn_of_never fun _ _ after => after
    | eof empty ended =>
        simp only [Exec.holds_bind, Exec.holds_pure]
        refine (closeForWriting_spec k (f := f) x ?_ busy ?_).mono pausesIn_of_never ?_
        · exact (good.broken (x := x) c.world (c.pair.link x).out.closeReadEnd rfl rfl
            (closeReadEnd_count readEnd) rfl ⟨fun _ => rfl, id⟩).1
        · simpa using writable
        · intro _ e closed
          have here := closed.here
          have there := closed.there
          simp only [Pair.link_set, Pair.link_other_set] at here there
          exact good.completed writable empty ended closed.toHeld
            (closed.terminated.trans (by simp)) here there
  · exact good

/-- `ForwardFromOther` keeps a pair as it should be, however far it gets. -/
theorem forward_spec (k : Kernel W) {f : Frame} {c : Ctx W} (x : Side) (fuel : ℕ) (res : Bool)
    (good : Good f c) (busy : ∀ y, 0 < f.temps y) :
    Holds (forward k x fuel res) (pausesIn (Good f)) (fun _ d => Good f d) c := by
  induction fuel generalizing c res with
  | zero => exact good
  | succ fuel ih =>
      simp only [forward, Exec.holds_bind]
      refine (fill_spec k x good busy).mono (fun _ _ stopped => stopped) ?_
      intro filled d goodD
      cases filled with
      | none => exact goodD
      | some filled =>
          simp only [Exec.holds_bind]
          refine (drain_spec k x goodD busy).mono (fun _ _ stopped => stopped) ?_
          intro drained e goodE
          cases drained with
          | none => exact goodE
          | some drained =>
              simp only
              split
              · exact ih true goodE
              · exact goodE

theorem process_spec (k : Kernel W) {f : Frame} {c : Ctx W} (fuel : ℕ) (x : Side)
    (events : Events) (leftFirst : Bool) (good : Good f c) (busy : ∀ y, 0 < f.temps y) :
    Holds (process k fuel x events leftFirst) (pausesIn (Good f)) (fun _ d => Good f d) c := by
  have out : ∀ {d : Ctx W}, Good f d →
      Holds (if hasBits events EPOLLOUT then forwardFromOther k fuel x else pure false)
        (pausesIn (Good f)) (fun _ e => Good f e) d := by
    intro d goodD
    split
    · exact forward_spec k x fuel false goodD busy
    · exact goodD
  have into : ∀ {d : Ctx W}, Good f d →
      Holds (if hasBits events EPOLLIN then do forwardFromOther k fuel (← other x)
        else pure false) (pausesIn (Good f)) (fun _ e => Good f e) d := by
    intro d goodD
    split
    · simp only [Exec.holds_bind, holds_other (goodD.alive (busy x)) goodD.linked]
      exact forward_spec k x.other fuel false goodD busy
    · exact goodD
  simp only [process]
  split
  · simp only [Exec.holds_bind, Exec.holds_pure]
    exact (terminate_spec k x good.toHeld busy good.sent).mono pausesIn_of_never
      fun _ _ after => after
  · split
    · refine (out good).bind fun _ _ goodD => (into goodD).bind fun _ _ goodE => goodE
    · refine (into good).bind fun _ _ goodD => (out goodD).bind fun _ _ goodE => goodE

end Hcproxy.Forwarder
