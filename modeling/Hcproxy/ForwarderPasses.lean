import Hcproxy.ForwarderCounts
import Hcproxy.ForwarderTunnels

set_option autoImplicit false

namespace Hcproxy.Forwarder

open Exec (Holds Relates)

variable {W : Type} (k : Kernel W)

/-- The worlds after calls on the sockets of the pair `i` that return nothing of interest. -/
inductive Called (i : ℕ) (w : W) : W → Prop
  | refl : Called i w w
  | call {v : W} (before : Called i w v) (x : Side) (syscall : Call) :
    Called i w (k.call v (i, x) syscall)

theorem Called.trans {i : ℕ} {u v w : W} (first : Called k i u v) (second : Called k i v w) :
    Called k i u w := by
  induction second with
  | refl => exact first
  | call _ x syscall ih => exact .call ih x syscall

/-- What closing links does to what is around them: the loop sheds some nodes of the pair. -/
structure Sheds (c d : Ctx W) : Prop where
  id : d.id = c.id
  clock : d.clock = c.clock
  timeout : d.loop.timeout = c.loop.timeout
  linked : d.pair.linked = c.pair.linked
  terminated : d.pair.terminated = c.pair.terminated
  expire : ∃ gone : List Side,
    d.loop.expire = c.loop.expire.filter fun e => e.1.1 ≠ c.id ∨ e.1.2 ∉ gone

/-- No system calls are made but ones that return nothing of interest. -/
structure Calm (c d : Ctx W) : Prop extends Sheds c d where
  called : Called k c.id c.world d.world

variable {k} {c d : Ctx W}

theorem Sheds.quiet (id : d.id = c.id) (clock : d.clock = c.clock) (loop : d.loop = c.loop)
    (linked : d.pair.linked = c.pair.linked) (terminated : d.pair.terminated = c.pair.terminated) :
    Sheds c d := by
  refine ⟨id, clock, by rw [loop], linked, terminated, [], ?_⟩
  rw [loop, eq_comm, List.filter_eq_self]
  exact fun e _ => by simp

theorem Sheds.trans {e : Ctx W} (first : Sheds c d) (second : Sheds d e) : Sheds c e := by
  obtain ⟨gone, before⟩ := first.expire
  obtain ⟨goneToo, after⟩ := second.expire
  refine ⟨second.id.trans first.id, second.clock.trans first.clock,
    second.timeout.trans first.timeout, second.linked.trans first.linked,
    second.terminated.trans first.terminated, gone ++ goneToo, ?_⟩
  rw [after, before, List.filter_filter, first.id]
  apply List.filter_congr
  intro e _
  by_cases foreign : e.1.1 = c.id
  · simp [foreign, Bool.and_comm]
  · simp [foreign]

theorem Calm.quiet (id : d.id = c.id) (clock : d.clock = c.clock) (loop : d.loop = c.loop)
    (linked : d.pair.linked = c.pair.linked) (terminated : d.pair.terminated = c.pair.terminated)
    (called : Called k c.id c.world d.world) : Calm k c d :=
  ⟨.quiet id clock loop linked terminated, called⟩

theorem Calm.refl (c : Ctx W) : Calm k c c := .quiet rfl rfl rfl rfl rfl .refl

theorem Calm.trans {e : Ctx W} (first : Calm k c d) (second : Calm k d e) : Calm k c e := by
  have called := second.called
  rw [first.id] at called
  exact ⟨first.toSheds.trans second.toSheds, first.called.trans k called⟩

instance : Trans (Calm k) (Calm k) (Calm k) := ⟨Calm.trans⟩

theorem Calm.set {x : Side} {l : Link} : Calm k c { c with pair := c.pair.set x l } :=
  .quiet rfl rfl rfl (Pair.set_linked _ _ _) (Pair.set_terminated _ _ _) .refl

theorem Counts.calm (counts : Counts c d) : Calm k c d :=
  .quiet counts.id counts.clock counts.loop counts.linked counts.terminated (counts.world ▸ .refl)

theorem calm_get (x : Side) (c : Ctx W) : Relates (Calm k) (get x) c :=
  (counts_get x c).mono Counts.calm

theorem calm_put (x : Side) (l : Link) (c : Ctx W) : Relates (Calm k) (put x l) c :=
  (holds_put x l).mpr .set

theorem calm_check (condition : Prop) [Decidable condition] (c : Ctx W) :
    Relates (Calm k) (check condition) c := (counts_check condition c).mono Counts.calm

theorem calm_other (x : Side) (c : Ctx W) : Relates (Calm k) (other x) c :=
  (counts_other x c).mono Counts.calm

theorem calm_call (x : Side) (syscall : Call) (c : Ctx W) :
    Relates (Calm k) (call k x syscall) c :=
  (holds_call k x syscall).mpr (.quiet rfl rfl rfl rfl rfl (.call .refl x syscall))

theorem calm_decRef (x : Side) (c : Ctx W) : Relates (Calm k) (decRef x) c :=
  (counts_decRef x c).mono Counts.calm

theorem calm_remove (x : Side) (c : Ctx W) : Relates (Calm k) (remove k x) c := by
  unfold remove
  refine (calm_get x c).bind fun l d ran _ => ?_
  obtain ⟨rfl, rfl⟩ := get_ok ran
  simp only [Relates, Exec.holds_bind, holds_ctx]
  cases removed : d.loop.remove (d.id, x) (d.pair.link x).toEventHandler with
  | none => exact .refl d
  | some result =>
      obtain ⟨loop, eh⟩ := result
      rw [EventLoop.remove] at removed
      split at removed
      · cases removed
        simp only [Exec.holds_bind, holds_setCtx, holds_call]
        refine (calm_decRef x _).after ⟨⟨rfl, rfl, rfl, Pair.set_linked _ _ _,
          Pair.set_terminated _ _ _, [x], ?_⟩, .call .refl x _⟩
        apply List.filter_congr
        intro e _
        by_cases foreign : e.1.1 = d.id
        · simp [Prod.ext_iff, foreign]
        · simp [Prod.ext_iff, foreign]
      · cases removed

theorem calm_modify (x : Side) (events : Events) (c : Ctx W) :
    Relates (Calm k) (modify k x events) c := by
  unfold modify
  refine (calm_get x c).bind fun l d ran _ => ?_
  obtain ⟨rfl, rfl⟩ := get_ok ran
  simp only [Relates, Exec.holds_bind, holds_ctx]
  split
  · exact .refl d
  · simp only [Exec.holds_bind, holds_put]
    exact (calm_call x _ _).after .set

theorem calm_close (x : Side) (c : Ctx W) : Relates (Calm k) (close k x) c := by
  unfold close
  refine (calm_get x c).bind fun l d _ _ => ?_
  split
  · refine (calm_put x _ d).bind fun _ e _ _ => (calm_other x e).bind fun y g _ _ =>
      (calm_decRef y g).bind fun _ h _ _ => (calm_remove x h).bind fun _ i _ _ =>
      (calm_get x i).bind fun m j _ _ => (calm_put x _ j).bind fun _ l _ _ => ?_
    exact calm_call x _ l
  · exact .refl d

theorem calm_closeForReading (x : Side) (c : Ctx W) :
    Relates (Calm k) (closeForReading k x) c := by
  unfold closeForReading
  refine (calm_get x c).bind fun l d _ _ => (calm_check _ d).bind fun _ e _ _ => ?_
  split
  · refine (calm_put x _ e).bind fun _ g _ _ => (calm_modify x _ g).bind fun _ h _ _ => ?_
    exact calm_call x _ h
  · exact calm_close x e

theorem calm_closeForWriting (x : Side) (c : Ctx W) :
    Relates (Calm k) (closeForWriting k x) c := by
  unfold closeForWriting
  refine (calm_get x c).bind fun l d _ _ => (calm_check _ d).bind fun _ e _ _ =>
    (calm_put x _ e).bind fun _ g _ _ => (calm_get x g).bind fun m h _ _ => ?_
  split
  · refine (calm_put x _ h).bind fun _ i _ _ => (calm_modify x _ i).bind fun _ j _ _ => ?_
    exact calm_call x _ j
  · exact calm_close x h

/-- The pair of which one link has been terminated. -/
def Ctx.terminated (c : Ctx W) : Ctx W := { c with pair := { c.pair with terminated := true } }

theorem calm_terminate (x : Side) (c : Ctx W) :
    Relates (fun _ d => Calm k c.terminated d) (terminate k x) c := by
  have closed : Relates (Calm k) (do close k x; close k (← other x)) c.terminated :=
    (calm_close x _).bind fun _ d _ _ => (calm_other x d).bind fun y e _ _ => calm_close y e
  simp only [Relates, terminate, Exec.holds_bind, holds_ctx, holds_setCtx]
  simp only [Relates, Exec.holds_bind] at closed
  exact closed

/-- The bytes that have been read and delivered, and the ends of streams that have been read and
passed on. -/
structure Traffic where
  received : Bytes
  delivered : Bytes
  eof : Bool
  finished : Bool
  readable : Bool
  writable : Bool
deriving DecidableEq

def Link.traffic (l : Link) : Traffic :=
  ⟨l.received, l.delivered, l.eof, l.finished, l.readable, l.writable⟩

def Pair.traffic (p : Pair) : Traffic × Traffic := (p.client.traffic, p.server.traffic)

theorem traffic_link {p q : Pair} (same : p.traffic = q.traffic) (x : Side) :
    (p.link x).traffic = (q.link x).traffic := by
  cases x with
  | client => exact congrArg Prod.fst same
  | server => exact congrArg Prod.snd same

theorem traffic_of_links {p q : Pair} (x : Side)
    (here : (p.link x).traffic = (q.link x).traffic)
    (there : (p.link x.other).traffic = (q.link x.other).traffic) : p.traffic = q.traffic := by
  cases x with
  | client => exact Prod.ext here there
  | server => exact Prod.ext there here

section Cases

variable (k)

/-- The pipe of `x` has been offered to the other socket. -/
def Ctx.spliceIn (c : Ctx W) (x : Side) :=
  k.splice_in c.world (c.id, x.other) (c.pair.link x).out.size
    ((c.pair.link x).out.capacity - (c.pair.link x).out.size)

/-- Bytes have been read from the other socket into the pipe of `x`. -/
def Ctx.read (c : Ctx W) (x : Side) (bytes : Bytes) (world : W) : Ctx W := { c with
  world
  pair := (c.pair.set x { c.pair.link x with out := { (c.pair.link x).out with
      content := (c.pair.link x).out.content ++ bytes
      size := (c.pair.link x).out.size + bytes.length } }).set
    x.other { c.pair.link x.other with received := (c.pair.link x.other).received ++ bytes } }

/-- The end of the other socket's stream has been read. -/
def Ctx.readEof (c : Ctx W) (x : Side) (world : W) : Ctx W := { c with
  world
  pair := (c.pair.set x { c.pair.link x with out := (c.pair.link x).out.closeWriteEnd }).set
    x.other { c.pair.link x.other with eof := true } }

/-- Bytes have been moved from the pipe of `x` to its socket. -/
def Ctx.sent (c : Ctx W) (x : Side) (n : ℕ) (world : W) : Ctx W := { c with
  world
  pair := c.pair.set x { c.pair.link x with
    out := { (c.pair.link x).out with
      content := (c.pair.link x).out.content.drop n
      size := (c.pair.link x).out.size - n }
    delivered := (c.pair.link x).delivered ++ (c.pair.link x).out.content.take n } }

/-- The pipe of `x` has been found empty, and nothing more will come. -/
def Ctx.sentEof (c : Ctx W) (x : Side) : Ctx W := { c with
  pair := c.pair.set x { c.pair.link x with out := (c.pair.link x).out.closeReadEnd } }

/-- What `WriteFrom` does, by what the kernel answers. -/
inductive Wrote (x : Side) (c : Ctx W) : IoStatus → Ctx W → Prop
  | full (full : (c.pair.link x).out.size = (c.pair.link x).out.capacity) : Wrote x c .noOp c
  | again {world : W} (room : (c.pair.link x).out.size ≠ (c.pair.link x).out.capacity)
    (answered : c.spliceIn k x = some (.again, world)) : Wrote x c .noOp { c with world }
  | error {world : W} (room : (c.pair.link x).out.size ≠ (c.pair.link x).out.capacity)
    (answered : c.spliceIn k x = some (.error, world)) : Wrote x c .error { c with
      world
      pair := c.pair.set x { c.pair.link x with out := (c.pair.link x).out.closeWriteEnd } }
  | eof {world : W} (room : (c.pair.link x).out.size ≠ (c.pair.link x).out.capacity)
    (answered : c.spliceIn k x = some (.eof, world)) : Wrote x c .eof (c.readEof x world)
  | data {world : W} {bytes : Bytes} {more : bytes ≠ []}
    {fits : bytes.length ≤ (c.pair.link x).out.capacity - (c.pair.link x).out.size}
    (room : (c.pair.link x).out.size ≠ (c.pair.link x).out.capacity)
    (answered : c.spliceIn k x = some (.data bytes more fits, world)) :
    Wrote x c .data (c.read x bytes world)

theorem writeFrom_cases {x : Side} (alive : ∀ y, (c.pair.link y).deleted = false)
    (writeEnd : (c.pair.link x).out.writeEnd = true)
    (bounded : (c.pair.link x).out.size ≤ (c.pair.link x).out.capacity) :
    Holds (writeFrom k x) (fun why d => why = .pause ∧ d = c ∧ c.spliceIn k x = none)
      (Wrote k x c) c := by
  simp only [writeFrom, Exec.holds_bind, holds_link (alive _), holds_check writeEnd,
    holds_check bounded]
  split
  · rename_i full
    exact .full full
  · rename_i room
    simp only [Exec.holds_bind, holds_ctx]
    cases answered : k.splice_in c.world (c.id, x.other) (c.pair.link x).out.size
      ((c.pair.link x).out.capacity - (c.pair.link x).out.size) with
    | none => exact ⟨rfl, rfl, answered⟩
    | some result =>
        obtain ⟨answer, world⟩ := result
        cases answer with
        | again => exact .again room answered
        | error => exact .error room answered
        | eof => exact .eof room answered
        | data bytes more fits =>
            have inside : (c.pair.link x).out.size + bytes.length ≤ (c.pair.link x).out.capacity :=
              by omega
            simp only [Exec.holds_bind, holds_setCtx, holds_put, holds_check inside]
            exact .data room answered

/-- What `ReadTo` does, by what the kernel answers. -/
inductive ReadOut (x : Side) (c : Ctx W) : IoStatus → Ctx W → Prop
  | empty (empty : (c.pair.link x).out.size = 0)
    (more : (c.pair.link x).out.writeEnd = true) : ReadOut x c .noOp c
  | eof (empty : (c.pair.link x).out.size = 0)
    (ended : (c.pair.link x).out.writeEnd = false) : ReadOut x c .eof (c.sentEof x)
  | blocked {world : W} (filled : (c.pair.link x).out.size ≠ 0)
    (answered : k.write_blocks c.world (c.id, x) = some (true, world)) :
    ReadOut x c .noOp { c with world }
  | again {between world : W} {wiped : Bool} (filled : (c.pair.link x).out.size ≠ 0)
    (free : k.write_blocks c.world (c.id, x) = some (false, between))
    (answered : k.splice_out between (c.id, x) (c.pair.link x).out.size =
      some (.again wiped, world))
    (kept : ((c.pair.link x).out.wipe wiped).content.length = (c.pair.link x).out.size) :
    ReadOut x c .noOp { c with world }
  | lost {between world : W} {wiped : Bool} (filled : (c.pair.link x).out.size ≠ 0)
    (free : k.write_blocks c.world (c.id, x) = some (false, between))
    (answered : k.splice_out between (c.id, x) (c.pair.link x).out.size =
      some (.again wiped, world))
    (lost : ((c.pair.link x).out.wipe wiped).content.length ≠ (c.pair.link x).out.size) :
    ReadOut x c .error { c with
      world
      pair := c.pair.set x { c.pair.link x with
        out := ((c.pair.link x).out.wipe wiped).closeReadEnd } }
  | error {between world : W} {wiped : Bool} (filled : (c.pair.link x).out.size ≠ 0)
    (free : k.write_blocks c.world (c.id, x) = some (false, between))
    (answered : k.splice_out between (c.id, x) (c.pair.link x).out.size =
      some (.error wiped, world)) :
    ReadOut x c .error { c with
      world
      pair := c.pair.set x { c.pair.link x with
        out := ((c.pair.link x).out.wipe wiped).closeReadEnd } }
  | data {between world : W} {n : ℕ} {more : 0 < n} {fits : n ≤ (c.pair.link x).out.size}
    (filled : (c.pair.link x).out.size ≠ 0)
    (free : k.write_blocks c.world (c.id, x) = some (false, between))
    (answered : k.splice_out between (c.id, x) (c.pair.link x).out.size =
      some (.sent n more fits, world)) :
    ReadOut x c .data (c.sent x n world)

theorem readTo_cases {x : Side} (alive : (c.pair.link x).deleted = false)
    (readEnd : (c.pair.link x).out.readEnd = true)
    (bounded : (c.pair.link x).out.size ≤ (c.pair.link x).out.capacity) :
    Holds (readTo k x) (fun why _ => why = .pause ∧ (c.pair.link x).out.size ≠ 0 ∧
        (k.write_blocks c.world (c.id, x) = none ∨ ∃ between,
          k.write_blocks c.world (c.id, x) = some (false, between) ∧
            k.splice_out between (c.id, x) (c.pair.link x).out.size = none))
      (ReadOut k x c) c := by
  simp only [readTo, Exec.holds_bind, holds_link alive, holds_check readEnd]
  split
  · rename_i empty
    cases ended : (c.pair.link x).out.writeEnd with
    | true => exact .empty empty ended
    | false =>
        simp only [Bool.false_eq_true, ↓reduceIte, Exec.holds_bind, holds_put]
        exact .eof empty ended
  · rename_i filled
    simp only [Exec.holds_bind, holds_ctx]
    cases free : k.write_blocks c.world (c.id, x) with
    | none => exact ⟨rfl, filled, Or.inl rfl⟩
    | some result =>
        obtain ⟨blocks, between⟩ := result
        cases blocks with
        | true => exact .blocked filled free
        | false =>
            simp only [Exec.holds_bind, holds_setCtx, holds_ctx]
            cases answered : k.splice_out between (c.id, x) (c.pair.link x).out.size with
            | none => exact ⟨rfl, filled, Or.inr ⟨between, rfl, answered⟩⟩
            | some result =>
                obtain ⟨answer, world⟩ := result
                cases answer with
                | again wiped =>
                    simp only [Exec.holds_bind, holds_setCtx]
                    split
                    · rename_i kept
                      have unchanged : c.pair.set x { c.pair.link x with
                          out := (c.pair.link x).out } = c.pair := c.pair.set_self x
                      simp only [Exec.holds_bind, holds_put, Buffer.wipe_eq filled kept, unchanged]
                      exact .again filled free answered kept
                    · rename_i lost
                      exact .lost filled free answered lost
                | error wiped => exact .error filled free answered
                | sent n more fits =>
                    have room : (c.pair.link x).out.size - n ≤ (c.pair.link x).out.capacity := by
                      omega
                    simp only [Exec.holds_bind, holds_setCtx, holds_put, holds_check room]
                    exact .data filled free answered

/-- The pipe of `x` has been closed at one end because of an error. -/
def Ctx.broken (c : Ctx W) (x : Side) (out : Buffer) (world : W) : Ctx W := { c with
  world, pair := c.pair.set x { c.pair.link x with out } }

/-- What the first half of a pass of the loop in `ForwardFromOther` does. -/
inductive Fill (f : Frame) (x : Side) (c : Ctx W) : Option Bool → Ctx W → Prop
  | off (notReadable : (c.pair.link x.other).readable = false) : Fill f x c (some false) c
  | noOp {d : Ctx W} (readable : (c.pair.link x.other).readable = true)
    (ran : writeFrom k x c = .ok .noOp d) (wrote : Wrote k x c .noOp d) : Fill f x c (some false) d
  | data {world : W} {bytes : Bytes} {more : bytes ≠ []}
    {fits : bytes.length ≤ (c.pair.link x).out.capacity - (c.pair.link x).out.size}
    (readable : (c.pair.link x.other).readable = true)
    (room : (c.pair.link x).out.size ≠ (c.pair.link x).out.capacity)
    (answered : c.spliceIn k x = some (.data bytes more fits, world)) :
    Fill f x c (some true) (c.read x bytes world)
  | eof {world : W} {d : Ctx W} (readable : (c.pair.link x.other).readable = true)
    (room : (c.pair.link x).out.size ≠ (c.pair.link x).out.capacity)
    (answered : c.spliceIn k x = some (.eof, world))
    (closed : HalfClosed f (c.readEof x world) x.other
      { (c.readEof x world).pair.link x.other with readable := false } d)
    (calm : Calm k (c.readEof x world) d) : Fill f x c (some true) d
  | error {world : W} {d : Ctx W} (readable : (c.pair.link x.other).readable = true)
    (answered : c.spliceIn k x = some (.error, world))
    (closed : ∀ y, (d.pair.link y).isOpen = false)
    (calm : Calm k (c.broken x (c.pair.link x).out.closeWriteEnd world).terminated d) :
    Fill f x c none d

variable {f : Frame}

/-- A pair that has been terminated is closed. -/
theorem terminate_cases {x : Side} (held : Held f c) (busy : ∀ y, 0 < f.temps y)
    (sent : ∀ y, Sent (greeting y) (c.pair.link y) (c.pair.link y.other)) :
    Holds (terminate k x) (fun _ _ => False) (fun _ d => Good f d ∧ Calm k c.terminated d ∧
      ∀ y, (d.pair.link y).isOpen = false) c := by
  refine ((terminate_spec k x held busy sent).and (calm_terminate x c)).mono
    (fun _ _ stopped => stopped.1) ?_
  rintro _ d ⟨good, calm⟩
  exact ⟨good, calm, good.dead calm.terminated⟩

theorem fill_cases (x : Side) (good : Good f c) (busy : ∀ y, 0 < f.temps y) :
    Holds (fill k x) (fun why d => why = .pause ∧ d = c ∧ c.spliceIn k x = none)
      (fun r d => Good f d ∧ Fill k f x c r d) c := by
  have alive : ∀ y, (c.pair.link y).deleted = false := fun y => good.alive (busy y)
  simp only [fill, Exec.holds_bind, holds_other (alive x) good.linked, holds_link (alive x.other)]
  split
  · rename_i readable
    have live := good.live (good.running (x := x.other) (by simp [Link.isOpen, readable])) x
    have writeEnd := live.writeEnd readable
    simp only [Exec.holds_bind]
    refine (writeFrom_cases k alive writeEnd (good.sent x).bounded).ran.mono
      (fun _ _ stopped => stopped) ?_
    rintro status d ⟨ran, wrote⟩
    cases wrote with
    | full full => exact ⟨good, .noOp readable ran (.full full)⟩
    | again room answered => exact ⟨good.of_world _, .noOp readable ran (.again room answered)⟩
    | data room answered =>
        rename_i world bytes more fits
        have inside : (c.pair.link x).out.size + bytes.length ≤ (c.pair.link x).out.capacity := by
          have bounded := (good.sent x).bounded
          omega
        exact ⟨good.filled readable world bytes inside, .data readable room answered⟩
    | error room answered =>
        rename_i world
        obtain ⟨held, sent⟩ := good.broken (x := x) world (c.pair.link x).out.closeWriteEnd
          rfl rfl rfl (closeWriteEnd_count writeEnd) ⟨id, fun _ => rfl⟩
        simp only [Exec.holds_bind, Exec.holds_pure]
        refine (terminate_cases k held busy sent).mono (fun _ _ never => never.elim) ?_
        rintro _ e ⟨goodE, calm, closed⟩
        exact ⟨goodE, .error readable answered closed calm⟩
    | eof room answered =>
        rename_i world
        simp only [Exec.holds_bind, Exec.holds_pure]
        have held : Held f (c.readEof x world) := by
          refine good.kept rfl rfl (Nat.le_refl _) ?_ ((Side.forall_iff x).mpr ⟨?_, ?_⟩)
          · simp [Ctx.readEof]
          · rw [Ctx.readEof, Pair.link_set_other, Pair.link_set]
            exact ⟨rfl, rfl, rfl, rfl, rfl, rfl, rfl, rfl, rfl, closeWriteEnd_count writeEnd,
              id, fun _ => rfl⟩
          · rw [Ctx.readEof, Pair.link_set]
            exact ⟨rfl, rfl, rfl, rfl, rfl, rfl, rfl, rfl, rfl, rfl, id, id⟩
        have still : ((c.readEof x world).pair.link x.other).readable = true := by
          simpa [Ctx.readEof] using readable
        refine ((closeForReading_spec k x.other held busy still).and
          (calm_closeForReading x.other _)).mono (fun _ _ stopped => stopped.1.elim) ?_
        rintro _ e ⟨closed, calm⟩
        refine ⟨?_, .eof readable room answered closed calm⟩
        have here := closed.there
        have there := closed.here
        rw [Side.other_other] at here
        simp only [Ctx.readEof, Pair.link_set_other, Pair.link_set] at here there
        refine good.ended readable closed.toHeld (closed.terminated.trans ?_) here there
        simp [Ctx.readEof]
  · rename_i notReadable
    exact ⟨good, .off (Bool.eq_false_iff.mpr notReadable)⟩

/-- What the second half of a pass does. -/
inductive Drain (f : Frame) (x : Side) (c : Ctx W) : Option Bool → Ctx W → Prop
  | off (notWritable : (c.pair.link x).writable = false) : Drain f x c (some false) c
  | noOp {d : Ctx W} (writable : (c.pair.link x).writable = true)
    (ran : readTo k x c = .ok .noOp d) (read : ReadOut k x c .noOp d) : Drain f x c (some false) d
  | data {between world : W} {n : ℕ} {more : 0 < n} {fits : n ≤ (c.pair.link x).out.size}
    (writable : (c.pair.link x).writable = true) (filled : (c.pair.link x).out.size ≠ 0)
    (free : k.write_blocks c.world (c.id, x) = some (false, between))
    (answered : k.splice_out between (c.id, x) (c.pair.link x).out.size =
      some (.sent n more fits, world)) : Drain f x c (some true) (c.sent x n world)
  | eof {d : Ctx W} (writable : (c.pair.link x).writable = true)
    (empty : (c.pair.link x).out.size = 0) (ended : (c.pair.link x).out.writeEnd = false)
    (closed : HalfClosed f (c.sentEof x) x
      { (c.sentEof x).pair.link x with writable := false, finished := true } d)
    (calm : Calm k (c.sentEof x) d) : Drain f x c (some true) d
  | error {world : W} {out : Buffer} {d : Ctx W} (writable : (c.pair.link x).writable = true)
    (read : ReadOut k x c .error (c.broken x out world))
    (closed : ∀ y, (d.pair.link y).isOpen = false)
    (calm : Calm k (c.broken x out world).terminated d) : Drain f x c none d

theorem drain_cases (x : Side) (good : Good f c) (busy : ∀ y, 0 < f.temps y) :
    Holds (drain k x) (fun why _ => why = .pause ∧ (c.pair.link x).out.size ≠ 0 ∧
        (k.write_blocks c.world (c.id, x) = none ∨ ∃ between,
          k.write_blocks c.world (c.id, x) = some (false, between) ∧
            k.splice_out between (c.id, x) (c.pair.link x).out.size = none))
      (fun r d => Good f d ∧ Drain k f x c r d) c := by
  have alive := good.alive (busy x)
  simp only [drain, Exec.holds_bind, holds_link alive]
  split
  · rename_i writable
    have live := good.live (good.running (x := x) (by simp [Link.isOpen, writable])) x
    have readEnd := live.readEnd writable
    have broken : ∀ wiped world, ReadOut k x c .error
          (c.broken x ((c.pair.link x).out.wipe wiped).closeReadEnd world) →
        Holds (terminate k x) (fun _ _ => False) (fun _ d => Good f d ∧ Drain k f x c none d)
          (c.broken x ((c.pair.link x).out.wipe wiped).closeReadEnd world) := by
      intro wiped world read
      obtain ⟨held, sent⟩ := good.broken (x := x) world
        ((c.pair.link x).out.wipe wiped).closeReadEnd
        rfl rfl (closeReadEnd_count readEnd) rfl ⟨fun _ => rfl, id⟩
      refine (terminate_cases k held busy sent).mono (fun _ _ never => never) ?_
      rintro _ d ⟨goodD, calm, closed⟩
      exact ⟨goodD, .error writable read closed calm⟩
    simp only [Exec.holds_bind]
    refine (readTo_cases k alive readEnd (good.sent x).bounded).ran.mono
      (fun _ _ stopped => stopped) ?_
    rintro status d ⟨ran, read⟩
    cases read with
    | empty empty more => exact ⟨good, .noOp writable ran (.empty empty more)⟩
    | blocked filled answered =>
        exact ⟨good.of_world _, .noOp writable ran (.blocked filled answered)⟩
    | again filled free answered kept =>
        exact ⟨good.of_world _, .noOp writable ran (.again filled free answered kept)⟩
    | data filled free answered =>
        rename_i between world n more fits
        exact ⟨good.drained writable world n, .data writable filled free answered⟩
    | lost filled free answered lost =>
        simp only [Exec.holds_bind, Exec.holds_pure]
        exact (broken _ _ (.lost filled free answered lost)).mono (fun _ _ never => never.elim)
          fun _ _ after => after
    | error filled free answered =>
        simp only [Exec.holds_bind, Exec.holds_pure]
        exact (broken _ _ (.error filled free answered)).mono (fun _ _ never => never.elim)
          fun _ _ after => after
    | eof empty ended =>
        simp only [Exec.holds_bind, Exec.holds_pure]
        have held : Held f (c.sentEof x) :=
          (good.broken (x := x) c.world (c.pair.link x).out.closeReadEnd rfl rfl
            (closeReadEnd_count readEnd) rfl ⟨fun _ => rfl, id⟩).1
        have still : ((c.sentEof x).pair.link x).writable = true := by
          simpa [Ctx.sentEof] using writable
        refine ((closeForWriting_spec k x held busy still).and
          (calm_closeForWriting x _)).mono (fun _ _ stopped => stopped.1.elim) ?_
        rintro _ e ⟨closed, calm⟩
        refine ⟨?_, .eof writable empty ended closed calm⟩
        have here := closed.here
        have there := closed.there
        simp only [Ctx.sentEof, Pair.link_set, Pair.link_other_set] at here there
        refine good.completed writable empty ended closed.toHeld (closed.terminated.trans ?_)
          here there
        simp [Ctx.sentEof]
  · rename_i notWritable
    exact ⟨good, .off (Bool.eq_false_iff.mpr notWritable)⟩

end Cases

theorem Wrote.noOp_pair {x : Side} (wrote : Wrote k x c .noOp d) : d.pair = c.pair := by
  cases wrote with
  | full => rfl
  | again => rfl

theorem ReadOut.noOp_pair {x : Side} (read : ReadOut k x c .noOp d) : d.pair = c.pair := by
  cases read with
  | empty => rfl
  | blocked => rfl
  | again => rfl

/-- A half of a pass that moves nothing leaves the pair as it is. -/
theorem Fill.quiet {f : Frame} {x : Side} (fills : Fill k f x c (some false) d) :
    d.pair = c.pair := by
  cases fills with
  | off => rfl
  | noOp _ _ wrote => exact wrote.noOp_pair

theorem Drain.quiet {f : Frame} {x : Side} (drains : Drain k f x c (some false) d) :
    d.pair = c.pair := by
  cases drains with
  | off => rfl
  | noOp _ _ read => exact read.noOp_pair

/-- The states in which `OnEvent` of the link `x`, which the loop has called with `events`, runs
`Process`. -/
inductive Processing (k : Kernel W) (opt : Options) (x : Side) (events : Events) : Ctx W → Prop
  | start {s : State W} {i : ℕ} {p : Pair} {rest : List Event} {c : Ctx W}
    (reach : Reachable k opt s) (phase : s.phase = .dispatching (.io i x events :: rest))
    (found : s.pairs[i]? = some p) (registered : (p.link x).event_loop = true)
    (held : hold x.other (s.ctx i p) = .ok ⟨⟩ c) : Processing k opt x events c

/-- The states in which `ForwardFromOther` of the link `x` is called. -/
inductive Forwarding (k : Kernel W) (opt : Options) : Side → Ctx W → Prop
  | first {y : Side} {events : Events} {c : Ctx W} (x : Side)
    (processing : Processing k opt y events c) : Forwarding k opt x c
  | second {x y : Side} {events : Events} {fuel : ℕ} {res : Bool} {c d : Ctx W}
    (processing : Processing k opt y events c)
    (ran : forwardFromOther k fuel x c = .ok res d) : Forwarding k opt x.other d

/-- Both links are held while `Process` runs, and the pair is as it should be. -/
theorem Processing.good {opt : Options} {x : Side} {events : Events}
    (processing : Processing k opt x events c) : ∃ f, Good f c ∧ ∀ y, 0 < f.temps y := by
  cases processing with
  | start reach phase found registered held =>
      rename_i s i p rest
      obtain ⟨temps, safe⟩ := safe_of_reachable k reach
      have refs := safe.refs (by simp [phase]) (i, x)
      have positive : 0 < temps (i, x) := by
        rw [refs, phase]
        simp [Phase.refs, Event.sock]
      obtain ⟨q, foundQ, intact⟩ := safe.found positive
      cases found.symm.trans foundQ
      have good := safe.good found intact
      have isOpen : (p.link x).isOpen = true := (good.owned x).registered.symm.trans registered
      obtain ⟨goodC, _⟩ := (hold_spec good (good.other_alive isOpen)).ok held
      refine ⟨_, goodC, (Side.forall_iff x).mpr ⟨?_, ?_⟩⟩
      · exact Nat.lt_of_lt_of_le positive
          ((s.frame i fun y => temps (i, y)).hold_le x.other x)
      · rw [Frame.hold_self]
        exact Nat.succ_pos _

theorem Forwarding.good {opt : Options} {x : Side} (forwarding : Forwarding k opt x c) :
    ∃ f, Good f c ∧ ∀ y, 0 < f.temps y := by
  cases forwarding with
  | first _ processing => exact processing.good
  | second processing ran =>
      rename_i y z events fuel res b
      obtain ⟨f, good, busy⟩ := processing.good
      exact ⟨f, (forward_spec k y fuel false good busy).ok ran, busy⟩

/-- A link to which a reference has been taken. -/
def Ctx.hold (c : Ctx W) (x : Side) : Ctx W := { c with
  pair := c.pair.set x { c.pair.link x with
    ref_count := (c.pair.link x).ref_count + 1
    temps := (c.pair.link x).temps + 1 } }

theorem hold_ok {x : Side} (alive : (c.pair.link x).deleted = false) :
    Forwarder.hold x c = .ok ⟨⟩ (c.hold x) := by
  have known : Holds (Forwarder.hold x) (fun _ _ => False) (fun _ d => d = c.hold x) c := by
    have there : (({ c with pair := c.pair.set x { c.pair.link x with
        ref_count := (c.pair.link x).ref_count + 1 } } : Ctx W).pair.link x).deleted = false := by
      simpa using alive
    simp only [Forwarder.hold, incRef, Exec.holds_bind, holds_link alive, holds_put,
      holds_link there, Pair.link_set, Pair.set_set]
    rfl
  obtain ⟨_, d, ran, rfl⟩ := known.returns
  exact ran

/-- A loop that is about to dispatch an event to a client that has sent two bytes. -/
def arrived : State Bytes :=
  (Runs.replay (step eager onePage)
    { loop := { timeout := sixty }, clock := 0, world := [65, 66] }
    [.wait [.popFunc], .dispatch 0 true, .dispatch 0 true, .expire,
      .wait [.io 0 .client (EPOLLIN ||| EPOLLOUT)]]).get (by decide +kernel)

theorem arrived_reachable : Reachable eager onePage arrived :=
  Runs.replay_reachable _ (.start ⟨_, _, _, rfl⟩) (Option.some_get _).symm

def arrivedPair : Pair := arrived.pairs[0]?.get (by decide +kernel)

def arrivedCtx : Ctx Bytes := (arrived.ctx 0 arrivedPair).hold .server

theorem arrived_processing : Processing eager onePage .client
    (EPOLLIN ||| EPOLLOUT) arrivedCtx :=
  .start arrived_reachable
    (show arrived.phase = .dispatching [.io 0 .client (EPOLLIN ||| EPOLLOUT)] by decide +kernel)
    (Option.some_get _).symm (by decide +kernel) (hold_ok (by decide +kernel))

end Hcproxy.Forwarder
