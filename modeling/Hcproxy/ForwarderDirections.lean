import Hcproxy.ForwarderPasses

set_option autoImplicit false

namespace Hcproxy.Forwarder

open Exec (Holds)

/-- One direction of a pair by itself: the pipe, the reading half of the socket that it is filled
from, and the writing half of the socket that it is drained to. -/
structure Direction where
  out : Buffer
  readable : Bool
  writable : Bool
  received : Bytes
  eof : Bool
  delivered : Bytes
  finished : Bool

def Link.direction (sink source : Link) : Direction where
  out := sink.out
  readable := source.readable
  writable := sink.writable
  received := source.received
  eof := source.eof
  delivered := sink.delivered
  finished := sink.finished

/-- The direction to the link `x`. -/
def Pair.direction (p : Pair) (x : Side) : Direction := (p.link x).direction (p.link x.other)

/-- What the system calls of one direction answer one after the other, none of it an error. -/
structure Script (D : Type) where
  splice_in : D → (used room : ℕ) → SpliceIn room × D
  write_blocks : D → Bool × D
  splice_out : D → (size : ℕ) → SpliceOut size × D
  reads : ∀ v used room, (splice_in v used room).1 ≠ .error
  writes : ∀ v size wiped, (splice_out v size).1 ≠ .error wiped
  keeps : ∀ v size, (splice_out v size).1 ≠ .again true

section Alone

variable {D : Type} (s : Script D)

/-- `WriteFrom`, and what is done about the end of the stream. -/
def Direction.fill (a : Direction) (v : D) : Bool × Direction × D :=
  if a.readable then
    if a.out.size = a.out.capacity then (false, a, v)
    else match s.splice_in v a.out.size (a.out.capacity - a.out.size) with
      | (.data bytes _ _, v) => (true, { a with
          out := { a.out with
            content := a.out.content ++ bytes
            size := a.out.size + bytes.length }
          received := a.received ++ bytes }, v)
      | (.eof, v) =>
        (true, { a with out := a.out.closeWriteEnd, readable := false, eof := true }, v)
      | (.again, v) => (false, a, v)
      | (.error, v) => (false, a, v)      -- excluded by `reads`
  else (false, a, v)

/-- `ReadTo`, and what is done about the end of the stream. -/
def Direction.drain (a : Direction) (v : D) : Bool × Direction × D :=
  if a.writable then
    if a.out.size = 0 then
      if a.out.writeEnd then (false, a, v)
      else (true, { a with out := a.out.closeReadEnd, writable := false, finished := true }, v)
    else match s.write_blocks v with
      | (true, v) => (false, a, v)
      | (false, v) => match s.splice_out v a.out.size with
        | (.sent n _ _, v) => (true, { a with
            out := { a.out with
              content := a.out.content.drop n
              size := a.out.size - n }
            delivered := a.delivered ++ a.out.content.take n }, v)
        | (.again _, v) => (false, a, v)
        | (.error _, v) => (false, a, v)  -- excluded by `writes`
  else (false, a, v)

/-- The loop in `ForwardFromOther`. It is `none` when the fuel runs out. -/
def Direction.forward : (fuel : ℕ) → (res : Bool) → Direction → D → Option (Bool × Direction × D)
  | 0, _, _, _ => none
  | fuel + 1, res, a, v =>
    let (filled, a, v) := a.fill s v
    let (drained, a, v) := a.drain s v
    if filled || drained then forward fuel true a v else some (res, a, v)

end Alone

variable {W D : Type} {k : Kernel W} {f : Frame} {c d : Ctx W}

/-- What is left by a system call for the direction to `x`: the other direction is where it was in
its script. -/
structure Goes (view : W → Side → D) (P : W → Prop) (x : Side) (next : D) (w v : W) : Prop where
  here : view v x = next
  there : view v x.other = view w x.other
  sane : P v

/-- In the worlds with `P` the kernel answers the calls for each direction of the pair `i` by a
script of its own, in which the direction has come as far as `view` says. -/
structure Scripted (k : Kernel W) (i : ℕ) (script : Side → Script D) (view : W → Side → D)
    (P : W → Prop) : Prop where
  spliceIn : ∀ {w : W}, P w → ∀ x used room, ∃ v,
    k.splice_in w (i, x.other) used room =
        some (((script x).splice_in (view w x) used room).1, v) ∧
      Goes view P x ((script x).splice_in (view w x) used room).2 w v
  writeBlocks : ∀ {w : W}, P w → ∀ x, ∃ v,
    k.write_blocks w (i, x) = some (((script x).write_blocks (view w x)).1, v) ∧
      Goes view P x ((script x).write_blocks (view w x)).2 w v
  spliceOut : ∀ {w : W}, P w → ∀ x size, ∃ v,
    k.splice_out w (i, x) size = some (((script x).splice_out (view w x) size).1, v) ∧
      Goes view P x ((script x).splice_out (view w x) size).2 w v
  call : ∀ {w : W}, P w → ∀ x syscall,
    P (k.call w (i, x) syscall) ∧ view (k.call w (i, x) syscall) = view w

variable {script : Side → Script D} {view : W → Side → D} {P : W → Prop}

theorem Scripted.called {i : ℕ} {w v : W} (scripted : Scripted k i script view P) (sane : P w)
    (called : Called k i w v) : P v ∧ view v = view w := by
  induction called with
  | refl => exact ⟨sane, rfl⟩
  | call _ x syscall ih =>
      obtain ⟨saneV, same⟩ := ih
      obtain ⟨after, sameToo⟩ := scripted.call saneV x syscall
      exact ⟨after, sameToo.trans same⟩

/-- What the methods of the direction to `x` leave alone. -/
structure Apart (view : W → Side → D) (P : W → Prop) (x : Side) (c d : Ctx W) : Prop
    extends Sheds c d where
  direction : d.pair.direction x.other = c.pair.direction x.other
  view : view d.world x.other = view c.world x.other
  sane : P d.world

theorem Apart.refl {x : Side} (sane : P c.world) : Apart view P x c c :=
  ⟨.quiet rfl rfl rfl rfl rfl, rfl, rfl, sane⟩

theorem Apart.trans {x : Side} {e : Ctx W} (first : Apart view P x c d)
    (second : Apart view P x d e) : Apart view P x c e :=
  ⟨first.toSheds.trans second.toSheds, second.direction.trans first.direction,
    second.view.trans first.view, second.sane⟩

/-- A system call has been answered. -/
theorem Goes.apart {x : Side} {next : D} {world : W} (goes : Goes view P x next c.world world) :
    Apart view P x c { c with world } :=
  ⟨.quiet rfl rfl rfl rfl rfl, rfl, goes.there, goes.sane⟩

theorem Goes.trans {x : Side} {next last : D} {u v w : W} (first : Goes view P x next u v)
    (second : Goes view P x last v w) : Goes view P x last u w :=
  ⟨second.here, second.there.trans first.there, second.sane⟩

theorem Scripted.splicedIn {x : Side} (scripted : Scripted k c.id script view P)
    (sane : P c.world)
    {answer : SpliceIn ((c.pair.link x).out.capacity - (c.pair.link x).out.size)} {world : W}
    (answered : c.spliceIn k x = some (answer, world)) :
    (script x).splice_in (view c.world x) (c.pair.link x).out.size
        ((c.pair.link x).out.capacity - (c.pair.link x).out.size) = (answer, view world x) ∧
      Goes view P x (view world x) c.world world := by
  obtain ⟨v, known, goes⟩ := scripted.spliceIn sane x (c.pair.link x).out.size
    ((c.pair.link x).out.capacity - (c.pair.link x).out.size)
  have same := Option.some.inj (known.symm.trans answered)
  obtain ⟨rfl, rfl⟩ := Prod.mk.inj same
  exact ⟨Prod.ext rfl goes.here.symm, rfl, goes.there, goes.sane⟩

theorem Scripted.wroteBlocks {x : Side} (scripted : Scripted k c.id script view P)
    (sane : P c.world) {blocks : Bool} {world : W}
    (answered : k.write_blocks c.world (c.id, x) = some (blocks, world)) :
    (script x).write_blocks (view c.world x) = (blocks, view world x) ∧
      Goes view P x (view world x) c.world world := by
  obtain ⟨v, known, goes⟩ := scripted.writeBlocks sane x
  have same := Option.some.inj (known.symm.trans answered)
  obtain ⟨rfl, rfl⟩ := Prod.mk.inj same
  exact ⟨Prod.ext rfl goes.here.symm, rfl, goes.there, goes.sane⟩

theorem Scripted.splicedOut {i : ℕ} {x : Side} (scripted : Scripted k i script view P)
    {between world : W} (sane : P between) {size : ℕ} {answer : SpliceOut size}
    (answered : k.splice_out between (i, x) size = some (answer, world)) :
    (script x).splice_out (view between x) size = (answer, view world x) ∧
      Goes view P x (view world x) between world := by
  obtain ⟨v, known, goes⟩ := scripted.spliceOut sane x size
  have same := Option.some.inj (known.symm.trans answered)
  obtain ⟨rfl, rfl⟩ := Prod.mk.inj same
  exact ⟨Prod.ext rfl goes.here.symm, rfl, goes.there, goes.sane⟩

theorem direction_of_alike {p : Pair} {x : Side} {sink source : Link}
    (here : sink.Alike (p.link x)) (there : source.Alike (p.link x.other)) :
    p.direction x = sink.direction source := by
  rw [Pair.direction, Link.direction, Link.direction, here.out, here.writable, here.delivered,
    here.finished, there.readable, there.received, there.eof]

theorem direction_other (p : Pair) (x : Side) :
    p.direction x.other = (p.link x.other).direction (p.link x) := by
  rw [Pair.direction, Side.other_other]

theorem Fill.simulates {x : Side} {r : Option Bool} (scripted : Scripted k c.id script view P)
    (sane : P c.world) (fills : Fill k f x c r d) : ∃ io, r = some io ∧
      (c.pair.direction x).fill (script x) (view c.world x) =
        (io, d.pair.direction x, view d.world x) ∧ Apart view P x c d := by
  cases fills with
  | off notReadable =>
      refine ⟨false, rfl, ?_, .refl sane⟩
      exact if_neg (Bool.eq_false_iff.mp notReadable)
  | noOp readable _ wrote =>
      cases wrote with
      | full full =>
          refine ⟨false, rfl, ?_, .refl sane⟩
          exact (if_pos readable).trans (if_pos full)
      | again room answered =>
          obtain ⟨known, goes⟩ := scripted.splicedIn sane answered
          refine ⟨false, rfl, ?_, goes.apart⟩
          refine (if_pos readable).trans ((if_neg room).trans ?_)
          simp only [Pair.direction, Link.direction, known]
  | data readable room answered =>
      rename_i world bytes more _
      obtain ⟨known, goes⟩ := scripted.splicedIn sane answered
      refine ⟨true, rfl, ?_, ?_⟩
      · refine (if_pos readable).trans ((if_neg room).trans ?_)
        simp only [Pair.direction, Link.direction, known, Ctx.read, Pair.link_set,
          Pair.link_set_other]
      · refine ⟨.quiet rfl rfl rfl ?_ ?_, ?_, goes.there, goes.sane⟩
        · simp [Ctx.read]
        · simp [Ctx.read]
        · simp only [direction_other, Link.direction, Ctx.read, Pair.link_set, Pair.link_set_other]
  | eof readable room answered closed calm =>
      rename_i world
      obtain ⟨known, goes⟩ := scripted.splicedIn sane answered
      obtain ⟨saneD, same⟩ := scripted.called goes.sane calm.called
      have sheds : Sheds c (c.readEof x world) := by
        refine .quiet rfl rfl rfl ?_ ?_
        · simp [Ctx.readEof]
        · simp [Ctx.readEof]
      have here := closed.there
      have there := closed.here
      rw [Side.other_other] at here
      simp only [Ctx.readEof, Pair.link_set_other, Pair.link_set] at here there
      refine ⟨true, rfl, ?_, ⟨sheds.trans calm.toSheds, ?_, ?_, saneD⟩⟩
      · refine (if_pos readable).trans ((if_neg room).trans ?_)
        rw [direction_of_alike here there, same]
        simp only [Pair.direction, Link.direction, known]
      · rw [direction_other, direction_other, Link.direction, Link.direction, here.readable,
          here.received, here.eof, there.out, there.writable, there.delivered, there.finished]
      · rw [same]
        exact goes.there
  | error _ answered _ _ =>
      obtain ⟨known, _⟩ := scripted.splicedIn sane answered
      exact absurd (congrArg Prod.fst known) ((script x).reads _ _ _)

/-- A script has no error for `ReadTo`. -/
theorem ReadOut.impossible {x : Side} (scripted : Scripted k c.id script view P) (good : Good f c)
    (sane : P c.world) (writable : (c.pair.link x).writable = true)
    (read : ReadOut k x c .error d) : False := by
  cases read with
  | lost filled free answered lost =>
      rename_i between world wiped
      obtain ⟨_, goes⟩ := scripted.wroteBlocks sane free
      obtain ⟨known, _⟩ := scripted.splicedOut goes.sane answered
      cases wiped with
      | true => exact (script x).keeps _ _ (congrArg Prod.fst known)
      | false =>
          have live := good.live (good.running (x := x) (by simp [Link.isOpen, writable])) x
          exact lost live.counted.symm
  | error _ free answered =>
      obtain ⟨_, goes⟩ := scripted.wroteBlocks sane free
      obtain ⟨known, _⟩ := scripted.splicedOut goes.sane answered
      exact (script x).writes _ _ _ (congrArg Prod.fst known)

theorem Drain.simulates {x : Side} {r : Option Bool} (scripted : Scripted k c.id script view P)
    (good : Good f c) (sane : P c.world) (drains : Drain k f x c r d) : ∃ io, r = some io ∧
      (c.pair.direction x).drain (script x) (view c.world x) =
        (io, d.pair.direction x, view d.world x) ∧ Apart view P x c d := by
  cases drains with
  | off notWritable =>
      refine ⟨false, rfl, ?_, .refl sane⟩
      exact if_neg (Bool.eq_false_iff.mp notWritable)
  | noOp writable _ read =>
      cases read with
      | empty empty more =>
          refine ⟨false, rfl, ?_, .refl sane⟩
          exact (if_pos writable).trans ((if_pos empty).trans (if_pos more))
      | blocked filled answered =>
          obtain ⟨known, goes⟩ := scripted.wroteBlocks sane answered
          refine ⟨false, rfl, ?_, goes.apart⟩
          refine (if_pos writable).trans ((if_neg filled).trans ?_)
          simp only [Pair.direction, Link.direction, known]
      | again filled free answered kept =>
          obtain ⟨known, goes⟩ := scripted.wroteBlocks sane free
          obtain ⟨knownOut, goesOut⟩ := scripted.splicedOut goes.sane answered
          refine ⟨false, rfl, ?_, (goes.trans goesOut).apart⟩
          refine (if_pos writable).trans ((if_neg filled).trans ?_)
          simp only [Pair.direction, Link.direction, known, knownOut]
  | data writable filled free answered =>
      obtain ⟨known, goes⟩ := scripted.wroteBlocks sane free
      obtain ⟨knownOut, goesOut⟩ := scripted.splicedOut goes.sane answered
      have both := goes.trans goesOut
      refine ⟨true, rfl, ?_, ?_⟩
      · refine (if_pos writable).trans ((if_neg filled).trans ?_)
        simp only [Pair.direction, Link.direction, known, knownOut, Ctx.sent, Pair.link_set,
          Pair.link_other_set]
      · refine ⟨.quiet rfl rfl rfl ?_ ?_, ?_, both.there, both.sane⟩
        · simp [Ctx.sent]
        · simp [Ctx.sent]
        · simp only [direction_other, Link.direction, Ctx.sent, Pair.link_set,
            Pair.link_other_set]
  | eof writable empty ended closed calm =>
      obtain ⟨saneD, same⟩ := scripted.called sane calm.called
      have sheds : Sheds c (c.sentEof x) := by
        refine .quiet rfl rfl rfl ?_ ?_
        · simp [Ctx.sentEof]
        · simp [Ctx.sentEof]
      have here := closed.here
      have there := closed.there
      simp only [Ctx.sentEof, Pair.link_set, Pair.link_other_set] at here there
      refine ⟨true, rfl, ?_, ⟨sheds.trans calm.toSheds, ?_, ?_, saneD⟩⟩
      · refine (if_pos writable).trans ((if_pos empty).trans
          ((if_neg (Bool.eq_false_iff.mp ended)).trans ?_))
        rw [direction_of_alike here there, same]
        rfl
      · rw [direction_other, direction_other, Link.direction, Link.direction, here.readable,
          here.received, here.eof, there.out, there.writable, there.delivered, there.finished]
      · rw [same]
  | error writable read _ _ => exact (read.impossible scripted good sane writable).elim

/-- `ForwardFromOther` does to its direction what the loop does to a direction by itself. The
induction is on the passes. -/
theorem forward_simulates {x : Side} (scripted : Scripted k f.id script view P)
    (busy : ∀ y, 0 < f.temps y) (fuel : ℕ) (res : Bool) (good : Good f c) (sane : P c.world) :
    Holds (forward k x fuel res)
      (fun _ _ => (c.pair.direction x).forward (script x) fuel res (view c.world x) = none)
      (fun r d => Good f d ∧ Apart view P x c d ∧
        (c.pair.direction x).forward (script x) fuel res (view c.world x) =
          some (r, d.pair.direction x, view d.world x)) c := by
  induction fuel generalizing c res with
  | zero => rfl
  | succ fuel ih =>
      have scriptedC : Scripted k c.id script view P := good.loop.id ▸ scripted
      simp only [forward, Exec.holds_bind]
      refine (fill_cases k x good busy).mono ?_ ?_
      · rintro why d ⟨_, _, unanswered⟩
        obtain ⟨v, answered, _⟩ := scriptedC.spliceIn sane x (c.pair.link x).out.size
          ((c.pair.link x).out.capacity - (c.pair.link x).out.size)
        cases unanswered.symm.trans answered
      rintro r d ⟨goodD, fills⟩
      obtain ⟨filled, rfl, fillRan, apartD⟩ := fills.simulates scriptedC sane
      have scriptedD : Scripted k d.id script view P := goodD.loop.id ▸ scripted
      simp only [Exec.holds_bind]
      refine (drain_cases k x goodD busy).mono ?_ ?_
      · rintro why e ⟨_, _, unanswered⟩
        obtain ⟨v, answered, goes⟩ := scriptedD.writeBlocks apartD.sane x
        rcases unanswered with unanswered | ⟨between, free, unanswered⟩
        · cases unanswered.symm.trans answered
        · cases (Prod.mk.inj (Option.some.inj (free.symm.trans answered))).2
          obtain ⟨_, answered, _⟩ := scriptedD.spliceOut goes.sane x (d.pair.link x).out.size
          cases unanswered.symm.trans answered
      rintro r e ⟨goodE, drains⟩
      obtain ⟨drained, rfl, drainRan, apartE⟩ := drains.simulates scriptedD goodD apartD.sane
      have apart := apartD.trans apartE
      simp only [Direction.forward, fillRan, drainRan]
      split
      · refine (ih true goodE apartE.sane).mono (fun _ _ out => out) ?_
        rintro r g ⟨goodG, apartG, ran⟩
        exact ⟨goodG, apart.trans apartG, ran⟩
      · exact ⟨goodE, apart, rfl⟩

/-- What a link owns is a matter of its halves, of the halves of the other link and of the
references that are held to it. -/
theorem Owned.determines {this that this' that' : Link} (owned : Owned this that)
    (owned' : Owned this' that') (temps : this'.temps = this.temps)
    (here : this'.isOpen = this.isOpen) (there : that'.isOpen = that.isOpen)
    (readable : this'.readable = this.readable) (writable : this'.writable = this.writable) :
    this'.toEventHandler = this.toEventHandler ∧ this'.deleted = this.deleted ∧
      this'.removes = this.removes ∧ this'.closes = this.closes ∧ this'.deletes = this.deletes := by
  have registered : this'.event_loop = this.event_loop := by
    rw [owned'.registered, owned.registered, here]
  have refs : this'.ref_count = this.ref_count := by
    rw [owned'.refs, owned.refs, registered, there, temps]
  have events : this'.events = this.events := by
    rw [owned'.events, owned.events, here, readable, writable]
  have deleted : this'.deleted = this.deleted := by
    rw [Bool.eq_iff_iff, owned'.deleted, owned.deleted, refs]
  have removes := owned.removes.trans owned'.removes.symm
  have closes := owned.closes.trans owned'.closes.symm
  rw [here] at removes closes
  refine ⟨?_, deleted, by omega, by omega, ?_⟩
  · calc this'.toEventHandler
        = ⟨this'.event_loop, this'.ref_count, this'.events⟩ := rfl
      _ = ⟨this.event_loop, this.ref_count, this.events⟩ := by rw [registered, refs, events]
  · rw [owned'.deletes, owned.deletes, deleted]

/-- Two pairs whose directions are the same are the same. -/
theorem Held.pair_eq {e : Ctx W} (held : Held f d) (held' : Held f e)
    (terminated : e.pair.terminated = d.pair.terminated)
    (same : ∀ x, e.pair.direction x = d.pair.direction x) : e.pair = d.pair := by
  have links : ∀ x, e.pair.link x = d.pair.link x := by
    intro x
    have into := same x
    have back := same x.other
    rw [direction_other, direction_other] at back
    simp only [Pair.direction, Link.direction, Direction.mk.injEq] at into back
    obtain ⟨out, thereReadable, writable, _, _, delivered, finished⟩ := into
    obtain ⟨_, readable, thereWritable, received, eof, _, _⟩ := back
    have temps := (held'.temps x).trans (held.temps x).symm
    obtain ⟨base, deleted, removes, closes, deletes⟩ := (held.owned x).determines (held'.owned x)
      temps (by rw [Link.isOpen, Link.isOpen, readable, writable])
      (by rw [Link.isOpen, Link.isOpen, thereReadable, thereWritable]) readable writable
    calc e.pair.link x
        = ⟨(e.pair.link x).toEventHandler, (e.pair.link x).out, (e.pair.link x).readable,
            (e.pair.link x).writable, (e.pair.link x).deleted, (e.pair.link x).received,
            (e.pair.link x).delivered, (e.pair.link x).eof, (e.pair.link x).finished,
            (e.pair.link x).removes, (e.pair.link x).closes, (e.pair.link x).deletes,
            (e.pair.link x).temps⟩ := rfl
      _ = d.pair.link x := by
          rw [base, out, readable, writable, deleted, received, delivered, eof, finished, removes,
            closes, deletes, temps]
  calc e.pair
      = ⟨e.pair.link .client, e.pair.link .server, e.pair.linked, e.pair.terminated⟩ := rfl
    _ = d.pair := by
        rw [links, links, held'.linked, terminated, ← held.linked]
        rfl

/-- The nodes that have left are those of the links that are closed. -/
theorem Held.expire_eq (held : Held f d) (sheds : Sheds c d) :
    d.loop.expire = c.loop.expire.filter fun e => e.1.1 ≠ c.id ∨ (d.pair.link e.1.2).isOpen := by
  obtain ⟨gone, kept⟩ := sheds.expire
  have id : c.id = f.id := sheds.id.symm.trans held.loop.id
  rw [kept]
  apply List.filter_congr
  intro e member
  by_cases foreign : e.1.1 = c.id
  · have own : e.1 = (f.id, e.1.2) := Prod.ext (foreign.trans id) rfl
    have listed := held.loop.listed e.1.2
    rw [(held.owned e.1.2).registered] at listed
    have stays : e.1.2 ∉ gone ↔ (d.pair.link e.1.2).isOpen = true := by
      constructor
      · intro left
        have inside : e ∈ d.loop.expire := by
          rw [kept]
          exact List.mem_filter.mpr ⟨member, by simp [left]⟩
        have positive : 0 < (d.loop.expire.map Prod.fst).count (f.id, e.1.2) :=
          List.count_pos_iff.mpr (List.mem_map.mpr ⟨e, inside, own⟩)
        cases isOpen : (d.pair.link e.1.2).isOpen with
        | true => rfl
        | false =>
            rw [listed, isOpen, Bool.toNat_false] at positive
            exact absurd positive (Nat.lt_irrefl 0)
      · intro isOpen
        rw [isOpen, Bool.toNat_true] at listed
        have positive : 0 < (d.loop.expire.map Prod.fst).count (f.id, e.1.2) := by
          rw [listed]
          exact Nat.one_pos
        obtain ⟨n, inside, same⟩ := List.mem_map.mp (List.count_pos_iff.mp positive)
        rw [kept] at inside
        have left := (List.mem_filter.mp inside).2
        simpa [same, id] using left
    simp [foreign, stays]
  · simp [foreign]

/-- Two states that are reached from one by closing the same halves are the same. -/
theorem Held.loop_eq {e : Ctx W} (held : Held f d) (held' : Held f e) (sheds : Sheds c d)
    (sheds' : Sheds c e) (pair : e.pair = d.pair) : e.loop = d.loop := by
  have expire : e.loop.expire = d.loop.expire := by
    rw [held.expire_eq sheds, held'.expire_eq sheds', pair]
  have total : e.loop.total_events = d.loop.total_events := by
    rw [held.loop.total, held'.loop.total, pair]
  calc e.loop
      = ⟨e.loop.timeout, e.loop.expire, e.loop.total_events⟩ := rfl
    _ = d.loop := by rw [expire, total, held'.loop.timeout, ← held.loop.timeout]

/-- The operand of `|` for a direction: `ForwardFromOther` is called if the event has the bit. -/
def Direction.operand (s : Script D) (bit : Bool) (fuel : ℕ) (a : Direction) (v : D) :
    Option (Bool × Direction × D) :=
  if bit then a.forward s fuel false v else some (false, a, v)

theorem operand_simulates {x : Side} (scripted : Scripted k f.id script view P)
    (busy : ∀ y, 0 < f.temps y) (bit : Bool) (fuel : ℕ) (good : Good f c) (sane : P c.world) :
    Holds (if bit then forwardFromOther k fuel x else pure false)
      (fun _ _ => (c.pair.direction x).operand (script x) bit fuel (view c.world x) = none)
      (fun r d => Good f d ∧ Apart view P x c d ∧
        (c.pair.direction x).operand (script x) bit fuel (view c.world x) =
          some (r, d.pair.direction x, view d.world x)) c := by
  cases bit with
  | true => exact forward_simulates scripted busy fuel false good sane
  | false => exact ⟨good, .refl sane, rfl⟩

/-- What `Process` comes to when each direction goes by its script. -/
structure Processed (script : Side → Script D) (view : W → Side → D) (f : Frame) (x : Side)
    (out into : Bool) (fuel : ℕ) (c : Ctx W) (r : Bool) (d : Ctx W) : Prop extends Good f d where
  sheds : Sheds c d
  ran : ∃ l m, r = (l || m) ∧
    (c.pair.direction x).operand (script x) out fuel (view c.world x) =
      some (l, d.pair.direction x, view d.world x) ∧
    (c.pair.direction x.other).operand (script x.other) into fuel (view c.world x.other) =
      some (m, d.pair.direction x.other, view d.world x.other)

theorem process_simulates {x : Side} {events : Events} (scripted : Scripted k f.id script view P)
    (busy : ∀ y, 0 < f.temps y) (fuel : ℕ) (leftFirst : Bool) (good : Good f c) (sane : P c.world)
    (intact : hasBits events EPOLLERR = false) :
    Holds (process k fuel x events leftFirst)
      (fun _ _ => (c.pair.direction x).operand (script x) (hasBits events EPOLLOUT) fuel
          (view c.world x) = none ∨
        (c.pair.direction x.other).operand (script x.other) (hasBits events EPOLLIN) fuel
          (view c.world x.other) = none)
      (Processed script view f x (hasBits events EPOLLOUT) (hasBits events EPOLLIN) fuel c) c := by
  have into : ∀ {d : Ctx W}, Good f d → P d.world →
      Holds (if hasBits events EPOLLIN then do forwardFromOther k fuel (← other x) else pure false)
        (fun _ _ => (d.pair.direction x.other).operand (script x.other) (hasBits events EPOLLIN)
          fuel (view d.world x.other) = none)
        (fun r e => Good f e ∧ Apart view P x.other d e ∧
          (d.pair.direction x.other).operand (script x.other) (hasBits events EPOLLIN) fuel
            (view d.world x.other) = some (r, e.pair.direction x.other, view e.world x.other))
        d := by
    intro d goodD saneD
    have ran := operand_simulates (x := x.other) scripted busy (hasBits events EPOLLIN) fuel goodD
      saneD
    split at ran
    · rename_i bit
      rw [if_pos bit]
      simp only [Exec.holds_bind, holds_other (goodD.alive (busy x)) goodD.linked]
      exact ran
    · rename_i bit
      rw [if_neg bit]
      exact ran
  simp only [process, intact, Bool.false_eq_true, ↓reduceIte]
  split
  · rw [Exec.holds_bind]
    refine (operand_simulates scripted busy _ fuel good sane).mono (fun _ _ out => Or.inl out) ?_
    rintro l d ⟨goodD, apartD, ranOut⟩
    rw [Exec.holds_bind]
    refine (into goodD apartD.sane).mono (fun _ _ out => Or.inr ?_) ?_
    · rwa [apartD.direction, apartD.view] at out
    · rintro m e ⟨goodE, apartE, ranInto⟩
      have direction := apartE.direction
      have view := apartE.view
      rw [Side.other_other] at direction view
      rw [apartD.direction, apartD.view] at ranInto
      rw [← direction, ← view] at ranOut
      exact ⟨goodE, apartD.toSheds.trans apartE.toSheds, l, m, rfl, ranOut, ranInto⟩
  · rw [Exec.holds_bind]
    refine (into good sane).mono (fun _ _ out => Or.inr out) ?_
    rintro m d ⟨goodD, apartD, ranInto⟩
    have direction := apartD.direction
    have viewD := apartD.view
    rw [Side.other_other] at direction viewD
    rw [Exec.holds_bind]
    refine (operand_simulates scripted busy _ fuel goodD apartD.sane).mono
      (fun _ _ out => Or.inl ?_) ?_
    · rwa [direction, viewD] at out
    · rintro l e ⟨goodE, apartE, ranOut⟩
      rw [direction, viewD] at ranOut
      rw [← apartE.direction, ← apartE.view] at ranInto
      exact ⟨goodE, apartD.toSheds.trans apartE.toSheds, l, m, rfl, ranOut, ranInto⟩

theorem Processed.determines {x : Side} {out into : Bool} {fuel : ℕ} {r q : Bool} {e : Ctx W}
    (first : Processed script view f x out into fuel c r d)
    (second : Processed script view f x out into fuel c q e) : q = r ∧ e.id = d.id ∧
      e.pair = d.pair ∧ e.loop = d.loop ∧ e.clock = d.clock ∧ view e.world = view d.world := by
  obtain ⟨l, m, rfl, ranOut, ranInto⟩ := first.ran
  obtain ⟨l', m', rfl, ranOut', ranInto'⟩ := second.ran
  have outs := Option.some.inj (ranOut'.symm.trans ranOut)
  have intos := Option.some.inj (ranInto'.symm.trans ranInto)
  simp only [Prod.mk.injEq] at outs intos
  obtain ⟨rfl, directionOut, viewOut⟩ := outs
  obtain ⟨rfl, directionInto, viewInto⟩ := intos
  have terminated := second.sheds.terminated.trans first.sheds.terminated.symm
  have pair := first.pair_eq second.toHeld terminated
    ((Side.forall_iff x).mpr ⟨directionOut, directionInto⟩)
  refine ⟨rfl, second.sheds.id.trans first.sheds.id.symm, pair,
    first.loop_eq second.toHeld first.sheds second.sheds pair,
    second.sheds.clock.trans first.sheds.clock.symm, ?_⟩
  funext y
  exact (Side.forall_iff (P := fun y => view e.world y = view d.world y) x).mpr
    ⟨viewOut, viewInto⟩ y

/-- The operands of `|` commute: when each direction has a script of its own, whichever of the two
calls of `ForwardFromOther` comes first, they leave the same and return the same. -/
theorem directions_commute {opt : Options} {x : Side} {events : Events}
    (processing : Processing k opt x events c) (scripted : Scripted k c.id script view P)
    (sane : P c.world) (leftFirst : Bool) {fuel : ℕ} {r : Bool}
    (ran : process k fuel x events leftFirst c = .ok r d) : ∃ e,
      process k fuel x events (!leftFirst) c = .ok r e ∧ e.id = d.id ∧ e.pair = d.pair ∧
        e.loop = d.loop ∧ e.clock = d.clock ∧ view e.world = view d.world := by
  obtain ⟨f, good, busy⟩ := processing.good
  have scripted : Scripted k f.id script view P := good.loop.id ▸ scripted
  cases broken : hasBits events EPOLLERR with
  | true =>
      refine ⟨d, ?_, rfl, rfl, rfl, rfl, rfl⟩
      simp only [process, broken, ↓reduceIte] at ran ⊢
      exact ran
  | false =>
      have first := (process_simulates scripted busy fuel leftFirst good sane broken).ok ran
      have second := process_simulates (x := x) scripted busy fuel (!leftFirst) good sane broken
      obtain ⟨l, m, _, ranOut, ranInto⟩ := first.ran
      unfold Holds at second
      cases ranToo : process k fuel x events (!leftFirst) c with
      | ok q e =>
          rw [ranToo] at second
          obtain ⟨rfl, same⟩ := first.determines second
          exact ⟨e, rfl, same⟩
      | error why e =>
          rw [ranToo] at second
          rcases second with out | out
          · cases out.symm.trans ranOut
          · cases out.symm.trans ranInto

/-- What `eager` does for one direction, while the bytes of the script are unread. -/
def eagerScript : Script Bytes where
  splice_in unread _ room :=
    if more : unread.take room ≠ [] then
      (.data (unread.take room) more (List.length_take_le _ _), unread.drop room)
    else (.again, unread)
  write_blocks unread := (false, unread)
  splice_out unread size :=
    (if full : 0 < size then .sent size full (Nat.le_refl _) else .again false, unread)
  reads := by
    intro unread used room
    split <;> simp
  writes := by
    intro unread size wiped
    split <;> simp
  keeps := by
    intro unread size
    split <;> simp

/-- Only the client sends anything. -/
def eagerView (unread : Bytes) : Side → Bytes
  | .client => []
  | .server => unread

theorem eager_scripted (i : ℕ) :
    Scripted eager i (fun _ => eagerScript) eagerView fun _ => True := by
  refine ⟨?_, ?_, ?_, fun _ _ _ => ⟨trivial, rfl⟩⟩
  · intro w _ x used room
    cases x with
    | client => exact ⟨w, by simp [eager, eagerScript, eagerView, Side.other],
        by simp [eagerScript, eagerView], rfl, trivial⟩
    | server =>
        by_cases more : w.take room ≠ []
        · have known : eagerScript.splice_in w used room =
              (.data (w.take room) more (List.length_take_le _ _), w.drop room) := dif_pos more
          have answered : eager.splice_in w (i, .client) used room =
              some (.data (w.take room) more (List.length_take_le _ _), w.drop room) :=
            dif_pos ⟨more, rfl⟩
          refine ⟨w.drop room, ?_, ?_, rfl, trivial⟩
          · show eager.splice_in w (i, .client) used room =
              some ((eagerScript.splice_in w used room).1, w.drop room)
            rw [answered, known]
          · show w.drop room = (eagerScript.splice_in w used room).2
            rw [known]
        · have known : eagerScript.splice_in w used room = (.again, w) := dif_neg more
          have answered : eager.splice_in w (i, .client) used room = some (.again, w) :=
            dif_neg fun both => more both.1
          refine ⟨w, ?_, ?_, rfl, trivial⟩
          · show eager.splice_in w (i, .client) used room =
              some ((eagerScript.splice_in w used room).1, w)
            rw [answered, known]
          · show w = (eagerScript.splice_in w used room).2
            rw [known]
  · exact fun _ x => ⟨_, rfl, rfl, rfl, trivial⟩
  · exact fun _ x size => ⟨_, rfl, rfl, rfl, trivial⟩

theorem directions_commute_arrived : ∃ r d e,
    process eager 5 .client (EPOLLIN ||| EPOLLOUT) true arrivedCtx = .ok r d ∧
      process eager 5 .client (EPOLLIN ||| EPOLLOUT) false arrivedCtx = .ok r e ∧
      e.pair = d.pair ∧ e.loop = d.loop := by
  obtain ⟨r, d, ran⟩ := Exec.of_returns
    (m := process eager 5 .client (EPOLLIN ||| EPOLLOUT) true) (s := arrivedCtx)
    (by decide +kernel)
  obtain ⟨e, ranToo, _, pair, loop, _⟩ := directions_commute arrived_processing
    (eager_scripted arrivedCtx.id) trivial true ran
  exact ⟨r, d, e, ran, ranToo, pair, loop⟩

end Hcproxy.Forwarder
