import Hcproxy.ForwarderPasses

set_option autoImplicit false

namespace Hcproxy.Forwarder

open Exec (Holds)

variable {W : Type} {k : Kernel W} {f : Frame} {c d : Ctx W}

/-- The bytes that `splice` has read. -/
def SpliceIn.bytes {room : ℕ} : SpliceIn room → Bytes
  | .data bytes _ _ => bytes
  | _ => []

/-- In the worlds with `P n` the calls for the direction to the link `x` are answered, and the
socket that it is filled from has at most `n` bytes left to yield. -/
structure Supplies (k : Kernel W) (i : ℕ) (x : Side) (P : ℕ → W → Prop) : Prop where
  spliceIn : ∀ {n : ℕ} {w : W}, P n w → ∀ used room, ∃ answer v,
    k.splice_in w (i, x.other) used room = some (answer, v) ∧
      answer.bytes.length ≤ n ∧ P (n - answer.bytes.length) v
  writeBlocks : ∀ {n : ℕ} {w : W}, P n w → ∃ blocks v,
    k.write_blocks w (i, x) = some (blocks, v) ∧ P n v
  spliceOut : ∀ {n : ℕ} {w : W}, P n w → ∀ size, ∃ answer v,
    k.splice_out w (i, x) size = some (answer, v) ∧ P n v
  call : ∀ {n : ℕ} {w : W}, P n w → ∀ y syscall, P n (k.call w (i, y) syscall)

/-- From the world `w` on the source yields at most `n` bytes, in pieces of any size and with any
refusals, before whatever else it answers, and the sink takes and refuses what it likes. -/
def Yields (k : Kernel W) (i : ℕ) (x : Side) (n : ℕ) (w : W) : Prop :=
  ∃ P, Supplies k i x P ∧ P n w

theorem yields_supplies (k : Kernel W) (i : ℕ) (x : Side) : Supplies k i x (Yields k i x) := by
  refine ⟨?_, ?_, ?_, ?_⟩
  · rintro n w ⟨P, supplies, now⟩ used room
    obtain ⟨answer, v, answered, fits, later⟩ := supplies.spliceIn now used room
    exact ⟨answer, v, answered, fits, P, supplies, later⟩
  · rintro n w ⟨P, supplies, now⟩
    obtain ⟨blocks, v, answered, later⟩ := supplies.writeBlocks now
    exact ⟨blocks, v, answered, P, supplies, later⟩
  · rintro n w ⟨P, supplies, now⟩ size
    obtain ⟨answer, v, answered, later⟩ := supplies.spliceOut now size
    exact ⟨answer, v, answered, P, supplies, later⟩
  · rintro n w ⟨P, supplies, now⟩ y syscall
    exact ⟨P, supplies, supplies.call now y syscall⟩

theorem Yields.called {i : ℕ} {x : Side} {n : ℕ} {w v : W} (yields : Yields k i x n w)
    (called : Called k i w v) : Yields k i x n v := by
  induction called with
  | refl => exact yields
  | call _ y syscall ih => exact (yields_supplies k i x).call ih y syscall

/-- The bytes that the link `x` has been filled with. -/
def Ctx.yielded (c : Ctx W) (x : Side) : ℕ := (c.pair.link x.other).received.length

/-- What is left to do without reading any more: the bytes in the pipe, and the two half-closes. -/
def Ctx.pending (c : Ctx W) (x : Side) : ℕ :=
  (c.pair.link x).out.size + (c.pair.link x.other).readable.toNat + (c.pair.link x).writable.toNat

/-- What has been done in the direction to the link `x`. -/
def Ctx.moved (c : Ctx W) (x : Side) : ℕ :=
  c.yielded x + (c.pair.link x).delivered.length + (!(c.pair.link x.other).readable).toNat +
    (!(c.pair.link x).writable).toNat

/-- A byte that is read must also be written, which makes up for the pass that reads it. -/
structure Advances (x : Side) (c : Ctx W) (io : Bool) (d : Ctx W) : Prop where
  pending : d.pending x + 2 * c.yielded x + io.toNat ≤ c.pending x + 2 * d.yielded x
  moved : c.moved x + io.toNat ≤ d.moved x

theorem Advances.trans {x : Side} {e : Ctx W} {filled drained : Bool}
    (first : Advances x c filled d) (second : Advances x d drained e) :
    Advances x c (filled || drained) e := by
  obtain ⟨pending, moved⟩ := first
  obtain ⟨pendingToo, movedToo⟩ := second
  have more : (filled || drained).toNat ≤ filled.toNat + drained.toNat := by
    cases filled <;> cases drained <;> decide
  exact ⟨by omega, by omega⟩

theorem Advances.same {x : Side} (pair : d.pair = c.pair) : Advances x c false d := by
  have pending : d.pending x = c.pending x := by rw [Ctx.pending, Ctx.pending, pair]
  have yielded : d.yielded x = c.yielded x := by rw [Ctx.yielded, Ctx.yielded, pair]
  have moved : d.moved x = c.moved x := by rw [Ctx.moved, Ctx.moved, yielded, pair]
  rw [← Nat.add_zero (d.pending x)] at pending
  refine ⟨?_, ?_⟩
  · rw [Bool.toNat_false, yielded]
    omega
  · rw [Bool.toNat_false, moved]
    exact Nat.le_refl _

theorem Fill.advances {x : Side} {io : Bool} (fills : Fill k f x c (some io) d) :
    Advances x c io d := by
  cases fills with
  | off => exact .same rfl
  | noOp _ _ wrote => exact .same wrote.noOp_pair
  | data readable _ _ =>
      rename_i world bytes more _ _ _
      have some : 0 < bytes.length := List.length_pos_iff.mpr more
      refine ⟨?_, ?_⟩
      · simp only [Ctx.pending, Ctx.yielded, Ctx.read, Pair.link_set, Pair.link_set_other,
          List.length_append, Bool.toNat_true]
        omega
      · simp only [Ctx.moved, Ctx.yielded, Ctx.read, Pair.link_set, Pair.link_set_other,
          List.length_append, Bool.toNat_true]
        omega
  | eof readable _ _ closed _ =>
      have here := closed.there
      have there := closed.here
      rw [Side.other_other] at here
      simp only [Ctx.readEof, Pair.link_set, Pair.link_set_other] at here there
      refine ⟨?_, ?_⟩
      · simp only [Ctx.pending, Ctx.yielded, here.out, here.writable, there.readable,
          there.received, readable, Buffer.closeWriteEnd, Bool.toNat_true, Bool.toNat_false]
        omega
      · simp only [Ctx.moved, Ctx.yielded, here.delivered, here.writable, there.readable,
          there.received, readable, Bool.not_true, Bool.not_false, Bool.toNat_true,
          Bool.toNat_false]
        omega

theorem Drain.advances {x : Side} {io : Bool} (good : Good f c)
    (drains : Drain k f x c (some io) d) : Advances x c io d := by
  cases drains with
  | off => exact .same rfl
  | noOp _ _ read => exact .same read.noOp_pair
  | data writable =>
      rename_i between world n more fits _ _ _
      have counted := (good.live (good.running (x := x) (by simp [Link.isOpen, writable])) x).counted
      refine ⟨?_, ?_⟩
      · simp only [Ctx.pending, Ctx.yielded, Ctx.sent, Pair.link_set, Pair.link_other_set,
          Bool.toNat_true]
        omega
      · simp only [Ctx.moved, Ctx.yielded, Ctx.sent, Pair.link_set, Pair.link_other_set,
          List.length_append, List.length_take, Bool.toNat_true]
        omega
  | eof writable empty _ closed _ =>
      have here := closed.here
      have there := closed.there
      simp only [Ctx.sentEof, Pair.link_set, Pair.link_other_set] at here there
      refine ⟨?_, ?_⟩
      · simp only [Ctx.pending, Ctx.yielded, here.out, here.writable, there.readable,
          there.received, writable, Buffer.closeReadEnd, Bool.toNat_true, Bool.toNat_false]
        omega
      · simp only [Ctx.moved, Ctx.yielded, here.delivered, here.writable, there.readable,
          there.received, writable, Bool.not_true, Bool.not_false, Bool.toNat_true,
          Bool.toNat_false]
        omega

theorem Yields.spliceIn {x : Side} {n : ℕ} (yields : Yields k c.id x n c.world)
    {answer : SpliceIn ((c.pair.link x).out.capacity - (c.pair.link x).out.size)} {world : W}
    (answered : c.spliceIn k x = some (answer, world)) :
    answer.bytes.length ≤ n ∧ Yields k c.id x (n - answer.bytes.length) world := by
  obtain ⟨other, v, known, fits, later⟩ := (yields_supplies k c.id x).spliceIn yields
    (c.pair.link x).out.size ((c.pair.link x).out.capacity - (c.pair.link x).out.size)
  cases known.symm.trans answered
  exact ⟨fits, later⟩

theorem Yields.writeBlocks {x : Side} {n : ℕ} (yields : Yields k c.id x n c.world)
    {blocks : Bool} {world : W}
    (answered : k.write_blocks c.world (c.id, x) = some (blocks, world)) :
    Yields k c.id x n world := by
  obtain ⟨other, v, known, later⟩ := (yields_supplies k c.id x).writeBlocks yields
  cases known.symm.trans answered
  exact later

theorem Yields.spliceOut {i : ℕ} {x : Side} {n size : ℕ} {between world : W}
    (yields : Yields k i x n between) {answer : SpliceOut size}
    (answered : k.splice_out between (i, x) size = some (answer, world)) :
    Yields k i x n world := by
  obtain ⟨other, v, known, later⟩ := (yields_supplies k i x).spliceOut yields size
  cases known.symm.trans answered
  exact later

/-- What the source has yielded it does not yield again. -/
theorem Fill.yields {x : Side} {io : Bool} {n : ℕ} (fills : Fill k f x c (some io) d)
    (yields : Yields k c.id x n c.world) : ∃ m, Yields k d.id x m d.world ∧
      m + d.yielded x = n + c.yielded x := by
  cases fills with
  | off => exact ⟨n, yields, rfl⟩
  | noOp _ _ wrote =>
      cases wrote with
      | full => exact ⟨n, yields, rfl⟩
      | again _ answered => exact ⟨n, (yields.spliceIn answered).2, rfl⟩
  | data _ _ answered =>
      rename_i world bytes _ _ _ _
      obtain ⟨fits, later⟩ := yields.spliceIn answered
      have fits : bytes.length ≤ n := fits
      refine ⟨n - bytes.length, later, ?_⟩
      simp only [Ctx.yielded, Ctx.read, Pair.link_set, List.length_append]
      omega
  | eof _ _ answered closed calm =>
      have there := closed.here
      simp only [Ctx.readEof, Pair.link_set] at there
      refine ⟨n, ?_, ?_⟩
      · rw [calm.id]
        exact (yields.spliceIn answered).2.called calm.called
      · rw [Ctx.yielded, Ctx.yielded, there.received]

theorem Drain.yields {x : Side} {io : Bool} {n : ℕ} (drains : Drain k f x c (some io) d)
    (yields : Yields k c.id x n c.world) : Yields k d.id x n d.world ∧
      d.yielded x = c.yielded x := by
  cases drains with
  | off => exact ⟨yields, rfl⟩
  | noOp _ _ read =>
      refine ⟨?_, by rw [Ctx.yielded, Ctx.yielded, read.noOp_pair]⟩
      cases read with
      | empty => exact yields
      | blocked _ answered => exact yields.writeBlocks answered
      | again _ free answered _ => exact (yields.writeBlocks free).spliceOut answered
  | data _ _ free answered =>
      refine ⟨(yields.writeBlocks free).spliceOut answered, ?_⟩
      simp only [Ctx.yielded, Ctx.sent, Pair.link_other_set]
  | eof _ _ _ closed calm =>
      have there := closed.there
      simp only [Ctx.sentEof, Pair.link_other_set] at there
      refine ⟨?_, by rw [Ctx.yielded, Ctx.yielded, there.received]⟩
      rw [calm.id]
      exact yields.called calm.called

/-- `n` passes of the loop, each of which moves something. -/
inductive Passes (k : Kernel W) (x : Side) : ℕ → Ctx W → Ctx W → Prop
  | none (c : Ctx W) : Passes k x 0 c c
  | more {n : ℕ} {c d e g : Ctx W} {filled drained : Bool}
    (fills : fill k x c = .ok (some filled) d) (drains : drain k x d = .ok (some drained) e)
    (io : (filled || drained) = true) (rest : Passes k x n e g) : Passes k x (n + 1) c g

/-- `WriteFrom` is not called, or returns `kNoOp`. -/
def NothingRead (k : Kernel W) (x : Side) (c d : Ctx W) : Prop :=
  (c.pair.link x.other).readable = false ∧ d = c ∨
    (c.pair.link x.other).readable = true ∧ writeFrom k x c = .ok .noOp d

/-- `ReadTo` is not called, or returns `kNoOp`. -/
def NothingWritten (k : Kernel W) (x : Side) (c d : Ctx W) : Prop :=
  (c.pair.link x).writable = false ∧ d = c ∨
    (c.pair.link x).writable = true ∧ readTo k x c = .ok .noOp d

/-- A pass that `return false` ends, after it has moved something iff `io`. -/
inductive Breaks (k : Kernel W) (x : Side) (c : Ctx W) : (io : Bool) → Ctx W → Prop
  | reading {d : Ctx W} (fills : fill k x c = .ok none d) : Breaks k x c false d
  | writing {d e : Ctx W} {filled : Bool} (fills : fill k x c = .ok (some filled) d)
    (drains : drain k x d = .ok none e) : Breaks k x c filled e

theorem moved_of_traffic {x : Side} (same : d.pair.traffic = c.pair.traffic) :
    d.moved x = c.moved x := by
  have here := traffic_link same x
  have there := traffic_link same x.other
  simp only [Link.traffic, Traffic.mk.injEq] at here there
  rw [Ctx.moved, Ctx.moved, Ctx.yielded, Ctx.yielded, there.1, here.2.1, there.2.2.2.2.1,
    here.2.2.2.2.2]

/-- How a call of `ForwardFromOther` ends, when it may make `limit` passes that move something. -/
inductive Ends (k : Kernel W) (x : Side) (limit : ℕ) (c : Ctx W) : Bool → Ctx W → Prop
  | returned {passes : ℕ} {e g d : Ctx W} {res : Bool} (ran : Passes k x passes c e)
    (read : NothingRead k x e g) (written : NothingWritten k x g d) (few : passes ≤ limit)
    (result : res = true ↔ d.pair.traffic ≠ c.pair.traffic) : Ends k x limit c res d
  | broke {passes : ℕ} {e d : Ctx W} {io : Bool} (ran : Passes k x passes c e)
    (last : Breaks k x e io d) (few : passes + io.toNat ≤ limit) : Ends k x limit c false d

/-- The same for the loop that has been running, in which something had been moved iff `res`. -/
inductive Loops (k : Kernel W) (x : Side) (limit : ℕ) (res : Bool) (c : Ctx W) :
    Bool → Ctx W → Prop
  | returned {passes : ℕ} {e g d : Ctx W} (ran : Passes k x passes c e)
    (read : NothingRead k x e g) (written : NothingWritten k x g d) (few : passes ≤ limit)
    (moved : c.moved x + passes ≤ d.moved x) (idle : passes = 0 → d.pair = c.pair) :
    Loops k x limit res c (res || decide (0 < passes)) d
  | broke {passes : ℕ} {e d : Ctx W} {io : Bool} (ran : Passes k x passes c e)
    (last : Breaks k x e io d) (few : passes + io.toNat ≤ limit) : Loops k x limit res c false d

/-- A pass that moves something comes before the others. -/
theorem Loops.more {x : Side} {limit rest : ℕ} {res r filled drained : Bool} {e g : Ctx W}
    (fills : fill k x c = .ok (some filled) d) (drains : drain k x d = .ok (some drained) e)
    (io : (filled || drained) = true) (advances : Advances x c (filled || drained) e)
    (fewer : rest + 1 ≤ limit) (loops : Loops k x rest true e r g) : Loops k x limit res c r g := by
  have moved := advances.moved
  rw [io, Bool.toNat_true] at moved
  cases loops with
  | returned ran read written few movedToo _ =>
      rename_i passes _ _ _
      have result : Loops k x limit res c (res || decide (0 < passes + 1)) g :=
        .returned (.more fills drains io ran) read written (by omega) (by omega)
          fun none => absurd none (Nat.succ_ne_zero _)
      simpa using result
  | broke ran last few =>
      exact .broke (.more fills drains io ran) last (by omega)

theorem Loops.ends {x : Side} {limit : ℕ} {r : Bool} (loops : Loops k x limit false c r d) :
    Ends k x limit c r d := by
  cases loops with
  | returned ran read written few moved idle =>
      rename_i passes e g
      refine .returned ran read written few ?_
      rw [Bool.false_or, decide_eq_true_eq]
      constructor
      · intro some same
        have unmoved := moved_of_traffic (x := x) same
        omega
      · intro changed
        apply Nat.pos_of_ne_zero
        intro none
        rw [idle none] at changed
        exact changed rfl
  | broke ran last few => exact .broke ran last few

/-- The loop in `ForwardFromOther` ends when there is fuel for all that may be left to do. The
induction is on the fuel: a pass that moves something leaves less to do. -/
theorem forward_loops {x : Side} {fuel n : ℕ} (res : Bool) (good : Good f c)
    (busy : ∀ y, 0 < f.temps y) (yields : Yields k c.id x n c.world)
    (enough : 2 * n + c.pending x < fuel) :
    Holds (forward k x fuel res) (fun _ _ => False)
      (Loops k x (2 * n + c.pending x) res c) c := by
  induction fuel generalizing c res n with
  | zero => exact absurd enough (Nat.not_lt_zero _)
  | succ fuel ih =>
      simp only [forward, Exec.holds_bind]
      refine (fill_cases k x good busy).ran.mono ?_ ?_
      · rintro why d ⟨_, _, unanswered⟩
        obtain ⟨_, _, answered, _⟩ := (yields_supplies k c.id x).spliceIn yields
          (c.pair.link x).out.size ((c.pair.link x).out.capacity - (c.pair.link x).out.size)
        cases unanswered.symm.trans answered
      rintro filled d ⟨ranFill, goodD, fills⟩
      cases filled with
      | none => exact .broke (.none c) (.reading ranFill) (Nat.zero_le _)
      | some filled =>
          obtain ⟨m, yieldsD, spent⟩ := fills.yields yields
          have filling := fills.advances
          simp only [Exec.holds_bind]
          refine (drain_cases k x goodD busy).ran.mono ?_ ?_
          · rintro why e ⟨_, _, unanswered⟩
            obtain ⟨_, _, answered, later⟩ := (yields_supplies k d.id x).writeBlocks yieldsD
            rcases unanswered with unanswered | ⟨between, free, unanswered⟩
            · cases unanswered.symm.trans answered
            · cases free.symm.trans answered
              obtain ⟨_, _, answered, _⟩ := (yields_supplies k d.id x).spliceOut later
                (d.pair.link x).out.size
              cases unanswered.symm.trans answered
          rintro drained e ⟨ranDrain, goodE, drains⟩
          have pendingFill := filling.pending
          cases drained with
          | none => exact .broke (.none c) (.writing ranFill ranDrain) (by omega)
          | some drained =>
              obtain ⟨yieldsE, kept⟩ := drains.yields yieldsD
              have draining := drains.advances goodD
              have advances := filling.trans draining
              have pendingDrain := advances.pending
              simp only
              split
              · rename_i io
                rw [io, Bool.toNat_true] at pendingDrain
                refine (ih true goodE yieldsE (by omega)).mono (fun _ _ never => never) ?_
                intro r g loops
                exact .more ranFill ranDrain io advances (by omega) loops
              · rename_i noIo
                obtain ⟨rfl, rfl⟩ := Bool.or_eq_false_iff.mp (Bool.eq_false_iff.mpr noIo)
                have read : NothingRead k x c d := by
                  cases fills with
                  | off notReadable => exact Or.inl ⟨notReadable, rfl⟩
                  | noOp readable ran _ => exact Or.inr ⟨readable, ran⟩
                have written : NothingWritten k x d e := by
                  cases drains with
                  | off notWritable => exact Or.inl ⟨notWritable, rfl⟩
                  | noOp writable ran _ => exact Or.inr ⟨writable, ran⟩
                have idle : e.pair = c.pair := drains.quiet.trans fills.quiet
                have moved := advances.moved
                have result : Loops k x (2 * n + c.pending x) res c (res || decide (0 < 0)) e :=
                  .returned (.none c) read written (Nat.zero_le _) moved fun _ => idle
                simpa using result

theorem Ends.mono {x : Side} {few limit : ℕ} {r : Bool} (ends : Ends k x few c r d)
    (less : few ≤ limit) : Ends k x limit c r d := by
  cases ends with
  | returned ran read written count result =>
      exact .returned ran read written (Nat.le_trans count less) result
  | broke ran last count => exact .broke ran last (Nat.le_trans count less)

/-- `ForwardFromOther` returns, after at most as many passes that move something as there are bytes
to read, bytes to write and streams to end. -/
theorem forwarding_terminates {opt : Options} {x : Side} (forwarding : Forwarding k opt x c)
    {n : ℕ} (yields : Yields k c.id x n c.world) {fuel : ℕ}
    (enough : 2 * n + (c.pair.link x).out.size + 2 < fuel) : ∃ res d,
      forwardFromOther k fuel x c = .ok res d ∧
        Ends k x (2 * n + (c.pair.link x).out.size + 2) c res d := by
  obtain ⟨f, good, busy⟩ := forwarding.good
  have limit : 2 * n + c.pending x ≤ 2 * n + (c.pair.link x).out.size + 2 := by
    have readable := Bool.toNat_le (c.pair.link x.other).readable
    have writable := Bool.toNat_le (c.pair.link x).writable
    rw [Ctx.pending]
    omega
  obtain ⟨res, d, ran, loops⟩ := (forward_loops false good busy yields
    (Nat.lt_of_le_of_lt limit enough)).returns
  exact ⟨res, d, ran, loops.ends.mono limit⟩

theorem eager_yields (n : ℕ) (w : Bytes) (few : w.length ≤ n) : Yields eager 0 .server n w := by
  refine ⟨fun n w => w.length ≤ n, ⟨?_, ?_, ?_, fun few _ _ => few⟩, few⟩
  · intro n w few used room
    by_cases more : w.take room ≠ [] ∧ (.client : Side) = .client
    · refine ⟨_, _, dif_pos more, ?_⟩
      simp only [SpliceIn.bytes, List.length_take, List.length_drop]
      omega
    · exact ⟨_, _, dif_neg more, Nat.zero_le n, few⟩
  · exact fun few => ⟨_, _, rfl, few⟩
  · exact fun few size => ⟨_, _, rfl, few⟩

theorem forwarding_terminates_arrived : ∃ res d,
    forwardFromOther eager 7 .server arrivedCtx = .ok res d ∧
      Ends eager .server (2 * 2 + (arrivedCtx.pair.link .server).out.size + 2) arrivedCtx res d :=
  forwarding_terminates (.first .server arrived_processing) (n := 2)
    (eager_yields 2 _ (by decide +kernel)) (by decide +kernel)

end Hcproxy.Forwarder
