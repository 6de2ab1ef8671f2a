import Hcproxy.Forwarder

set_option autoImplicit false

namespace Hcproxy.Forwarder

open Exec (Holds)

variable {W : Type}

@[simp] theorem Side.other_other (x : Side) : x.other.other = x := by cases x <;> rfl

@[simp] theorem Side.other_ne (x : Side) : x.other ≠ x := by cases x <;> simp [other]

@[simp] theorem Side.ne_other (x : Side) : x ≠ x.other := by cases x <;> simp [other]

/-- A side is one of the two. -/
theorem Side.forall_iff {P : Side → Prop} (x : Side) : (∀ y, P y) ↔ P x ∧ P x.other := by
  constructor
  · exact fun all => ⟨all x, all x.other⟩
  · rintro ⟨here, there⟩ y
    cases x <;> cases y <;> assumption

theorem Side.both {P : Side → Prop} (client : P .client) (server : P .server) (x : Side) : P x := by
  cases x with
  | client => exact client
  | server => exact server

@[simp] theorem Pair.link_set (p : Pair) (x : Side) (l : Link) : (p.set x l).link x = l := by
  cases x <;> rfl

@[simp] theorem Pair.link_other_set (p : Pair) (x : Side) (l : Link) :
    (p.set x l).link x.other = p.link x.other := by
  cases x <;> rfl

@[simp] theorem Pair.link_set_other (p : Pair) (x : Side) (l : Link) :
    (p.set x.other l).link x = p.link x := by
  cases x <;> rfl

@[simp] theorem Pair.set_self (p : Pair) (x : Side) : p.set x (p.link x) = p := by
  cases x <;> rfl

@[simp] theorem Pair.set_set (p : Pair) (x : Side) (l m : Link) : (p.set x l).set x m = p.set x m := by
  cases x <;> rfl

@[simp] theorem Pair.set_other_set (p : Pair) (x : Side) (l m n : Link) :
    ((p.set x l).set x.other m).set x n = (p.set x.other m).set x n := by
  cases x <;> rfl

@[simp] theorem Pair.set_linked (p : Pair) (x : Side) (l : Link) :
    (p.set x l).linked = p.linked := by
  cases x <;> rfl

@[simp] theorem Pair.set_terminated (p : Pair) (x : Side) (l : Link) :
    (p.set x l).terminated = p.terminated := by
  cases x <;> rfl

section Rules

variable {α : Type} {onStop : Stop → Ctx W → Prop} {c : Ctx W}

@[simp] theorem holds_stop {post : α → Ctx W → Prop} (why : Stop) :
    Holds (stop why : Exec W α) onStop post c ↔ onStop why c := Iff.rfl

@[simp] theorem holds_ctx {post : Ctx W → Ctx W → Prop} :
    Holds (ctx : Exec W (Ctx W)) onStop post c ↔ post c c := Iff.rfl

@[simp] theorem holds_setCtx {post : PUnit → Ctx W → Prop} (d : Ctx W) :
    Holds (setCtx d) onStop post c ↔ post ⟨⟩ d := Iff.rfl

theorem holds_check {post : PUnit → Ctx W → Prop} {condition : Prop} [Decidable condition]
    (true_ : condition) : Holds (check condition) onStop post c ↔ post ⟨⟩ c := by
  simp [check, true_]

theorem holds_link {post : Link → Ctx W → Prop} {x : Side}
    (alive : (c.pair.link x).deleted = false) :
    Holds (get x) onStop post c ↔ post (c.pair.link x) c := by
  simp [get, alive]

theorem holds_other {post : Side → Ctx W → Prop} {x : Side}
    (alive : (c.pair.link x).deleted = false) (linked : c.pair.linked = true) :
    Holds (other x) onStop post c ↔ post x.other c := by
  simp [other, holds_link alive, linked]

@[simp] theorem holds_put {post : PUnit → Ctx W → Prop} (x : Side) (l : Link) :
    Holds (put x l) onStop post c ↔ post ⟨⟩ { c with pair := c.pair.set x l } := by
  simp [put]

@[simp] theorem holds_call {post : PUnit → Ctx W → Prop} (k : Kernel W) (x : Side) (syscall : Call) :
    Holds (call k x syscall) onStop post c ↔
      post ⟨⟩ { c with world := k.call c.world (c.id, x) syscall } := by
  simp [call]

theorem holds_get {post : Link → Ctx W → Prop} {x : Side} : Holds (get x) onStop post c ↔
    ((c.pair.link x).deleted = true → onStop .freed c) ∧
    ((c.pair.link x).deleted = false → post (c.pair.link x) c) := by
  simp only [get, Exec.holds_bind, holds_ctx, Exec.holds_ite, holds_stop, Exec.holds_pure,
    Bool.not_eq_true]

theorem holds_check_iff {post : PUnit → Ctx W → Prop} {condition : Prop} [Decidable condition] :
    Holds (check condition) onStop post c ↔
      (condition → post ⟨⟩ c) ∧ (¬ condition → onStop .check c) := by
  simp only [check, Exec.holds_ite, holds_stop, Exec.holds_pure]

theorem get_ok {x : Side} {l : Link} {d : Ctx W} (ran : get x c = .ok l d) :
    d = c ∧ l = c.pair.link x := by
  have known : Holds (get x) (fun _ _ => True) (fun l d => d = c ∧ l = c.pair.link x) c :=
    holds_get.mpr ⟨fun _ => trivial, fun _ => ⟨rfl, rfl⟩⟩
  exact known.ok ran

theorem check_ok {condition : Prop} [Decidable condition] {u : PUnit} {d : Ctx W}
    (ran : check condition c = .ok u d) : d = c := by
  have known : Holds (check condition) (fun _ _ => True) (fun _ d => d = c) c :=
    holds_check_iff.mpr ⟨fun _ => rfl, fun _ => trivial⟩
  exact known.ok ran

theorem other_ok {x y : Side} {d : Ctx W} (ran : other x c = .ok y d) : d = c ∧ y = x.other := by
  have known : Holds (other x) (fun _ _ => True) (fun y d => d = c ∧ y = x.other) c := by
    simp only [other, Exec.holds_bind, holds_get, holds_ctx, Exec.holds_ite, Exec.holds_pure,
      holds_stop, and_self, implies_true]
  exact known.ok ran

end Rules

/-- What `WriteFrom` can do to the buffer of `x`. -/
inductive WriteFrom (x : Side) (c : Ctx W) : IoStatus → Ctx W → Prop
  | noOp (world : W) : WriteFrom x c .noOp { c with world }
  | error (world : W) : WriteFrom x c .error { c with
      world
      pair := c.pair.set x { c.pair.link x with out := (c.pair.link x).out.closeWriteEnd } }
  | eof (world : W) : WriteFrom x c .eof { c with
      world
      pair := (c.pair.set x { c.pair.link x with out := (c.pair.link x).out.closeWriteEnd }).set
        x.other { c.pair.link x.other with eof := true } }
  | data (world : W) (bytes : Bytes)
    (fits : (c.pair.link x).out.size + bytes.length ≤ (c.pair.link x).out.capacity) :
    WriteFrom x c .data { c with
      world
      pair := (c.pair.set x { c.pair.link x with out := { (c.pair.link x).out with
          content := (c.pair.link x).out.content ++ bytes
          size := (c.pair.link x).out.size + bytes.length } }).set
        x.other { c.pair.link x.other with
          received := (c.pair.link x.other).received ++ bytes } }

/-- An execution that may only pause, and only in states with `P`. -/
def pausesIn (P : Ctx W → Prop) : Stop → Ctx W → Prop
  | .pause, c => P c
  | _, _ => False

theorem writeFrom_spec (k : Kernel W) {x : Side} {c : Ctx W}
    (alive : ∀ y, (c.pair.link y).deleted = false)
    (writeEnd : (c.pair.link x).out.writeEnd = true)
    (bounded : (c.pair.link x).out.size ≤ (c.pair.link x).out.capacity) :
    Holds (writeFrom k x) (pausesIn (· = c)) (WriteFrom x c) c := by
  simp only [writeFrom, Exec.holds_bind, holds_link (alive _), holds_check writeEnd,
    holds_check bounded]
  split
  · exact .noOp c.world
  · simp only [Exec.holds_bind, holds_ctx]
    cases k.splice_in c.world (c.id, x.other) (c.pair.link x).out.size
      ((c.pair.link x).out.capacity - (c.pair.link x).out.size) with
    | none => rfl
    | some result =>
        obtain ⟨answer, world⟩ := result
        cases answer with
        | again => exact .noOp world
        | error => exact .error world
        | eof => exact .eof world
        | data bytes more fits =>
            have room : (c.pair.link x).out.size + bytes.length ≤ (c.pair.link x).out.capacity := by
              omega
            simp only [Exec.holds_bind, holds_setCtx, holds_put, holds_check room]
            exact .data world bytes room

/-- What `ReadTo` can do to the buffer of `x`. -/
inductive ReadTo (x : Side) (c : Ctx W) : IoStatus → Ctx W → Prop
  | noOp (world : W) : ReadTo x c .noOp { c with world }
  | eof (empty : (c.pair.link x).out.size = 0)
    (ended : (c.pair.link x).out.writeEnd = false) : ReadTo x c .eof { c with
      pair := c.pair.set x { c.pair.link x with out := (c.pair.link x).out.closeReadEnd } }
  | error (world : W) (wiped : Bool) : ReadTo x c .error { c with
      world
      pair := c.pair.set x { c.pair.link x with
        out := ((c.pair.link x).out.wipe wiped).closeReadEnd } }
  | data (world : W) (n : ℕ) (fits : n ≤ (c.pair.link x).out.size) :
    ReadTo x c .data { c with
      world
      pair := c.pair.set x { c.pair.link x with
        out := { (c.pair.link x).out with
          content := (c.pair.link x).out.content.drop n
          size := (c.pair.link x).out.size - n }
        delivered := (c.pair.link x).delivered ++ (c.pair.link x).out.content.take n } }

/-- A pipe that was wiped is told from one that was not by its length. -/
theorem Buffer.wipe_eq {b : Buffer} {wiped : Bool} (filled : b.size ≠ 0)
    (same : (b.wipe wiped).content.length = b.size) : b.wipe wiped = b := by
  cases wiped with
  | false => rfl
  | true => exact absurd same.symm filled

theorem readTo_spec (k : Kernel W) {x : Side} {c : Ctx W}
    (alive : (c.pair.link x).deleted = false)
    (readEnd : (c.pair.link x).out.readEnd = true)
    (bounded : (c.pair.link x).out.size ≤ (c.pair.link x).out.capacity) :
    Holds (readTo k x) (pausesIn fun d => ∃ world, d = { c with world }) (ReadTo x c) c := by
  simp only [readTo, Exec.holds_bind, holds_link alive, holds_check readEnd]
  split
  · rename_i empty
    cases ended : (c.pair.link x).out.writeEnd with
    | true => exact .noOp c.world
    | false =>
        simp only [Bool.false_eq_true, ↓reduceIte, Exec.holds_bind, holds_put]
        exact .eof empty ended
  · rename_i filled
    simp only [Exec.holds_bind, holds_ctx]
    cases k.write_blocks c.world (c.id, x) with
    | none => exact ⟨c.world, rfl⟩
    | some result =>
        obtain ⟨blocks, world⟩ := result
        cases blocks with
        | true => exact .noOp world
        | false =>
            simp only [Exec.holds_bind, holds_setCtx, holds_ctx]
            cases k.splice_out world (c.id, x) (c.pair.link x).out.size with
            | none => exact ⟨world, rfl⟩
            | some result =>
                obtain ⟨answer, world⟩ := result
                cases answer with
                | again wiped =>
                    simp only [Exec.holds_bind, holds_setCtx]
                    split
                    · rename_i same
                      have unchanged : c.pair.set x { c.pair.link x with
                          out := (c.pair.link x).out } = c.pair := c.pair.set_self x
                      simp only [Exec.holds_bind, holds_put, Buffer.wipe_eq filled same, unchanged]
                      exact .noOp world
                    · exact .error world wiped
                | error wiped => exact .error world wiped
                | sent n more fits =>
                    have room : (c.pair.link x).out.size - n ≤ (c.pair.link x).out.capacity := by
                      omega
                    simp only [Exec.holds_bind, holds_setCtx, holds_put, holds_check room]
                    exact .data world n fits

end Hcproxy.Forwarder
