import Hcproxy.ForwarderCounts
import Hcproxy.ForwarderTunnels
import Hcproxy.Lib.Ownership

set_option autoImplicit false

namespace Hcproxy.Forwarder

open Exec (Holds Relates)
open Ownership (Uses)

variable {W : Type}

/-- A world with the system calls on sockets that it has seen, and which of them were `close`. -/
structure Watched (W : Type) where
  world : W
  log : List (Sock × Bool) := []

def Watched.use (w : Watched W) (world : W) (sock : Sock) (closes : Bool) : Watched W :=
  ⟨world, w.log ++ [(sock, closes)]⟩

def Call.closes : Call → Bool
  | .close => true
  | _ => false

/-- The kernel with a log. -/
def Kernel.watched (k : Kernel W) : Kernel (Watched W) where
  splice_in w sock used room :=
    (k.splice_in w.world sock used room).map fun r => (r.1, w.use r.2 sock false)
  write_blocks w sock := (k.write_blocks w.world sock).map fun r => (r.1, w.use r.2 sock false)
  splice_out w sock size :=
    (k.splice_out w.world sock size).map fun r => (r.1, w.use r.2 sock false)
  pipe w size := ((k.pipe w.world size).1, { w with world := (k.pipe w.world size).2 })
  elapse w := ((k.elapse w.world).1, { w with world := (k.elapse w.world).2 })
  call w sock syscall := w.use (k.call w.world sock syscall) sock syscall.closes
  wait w batch := { w with world := k.wait w.world batch }

def Link.isClosed (l : Link) : Bool := decide (0 < l.closes)

def Pair.isClosed (p : Pair) (x : Side) : Bool := (p.link x).isClosed

/-- A link with a flag set has its socket. -/
def Pair.Fair (p : Pair) : Prop := ∀ x, (p.link x).isOpen = true → p.isClosed x = false

/-- What has been done to the sockets of a pair: none was used that was closed. -/
def Tracks (c d : Ctx (Watched W)) : Prop :=
  d.id = c.id ∧ ∃ log : List (Side × Bool),
    d.world.log = c.world.log ++ log.map (fun use => ((c.id, use.1), use.2)) ∧
    Uses c.pair.isClosed log d.pair.isClosed

theorem Tracks.trans {c d e : Ctx (Watched W)} (first : Tracks c d) (second : Tracks d e) :
    Tracks c e := by
  obtain ⟨id, log, appended, uses⟩ := first
  obtain ⟨id', log', appended', uses'⟩ := second
  refine ⟨id'.trans id, log ++ log', ?_, uses.append uses'⟩
  rw [appended', appended, id, List.map_append, List.append_assoc]

theorem Tracks.quiet {c d : Ctx (Watched W)} (id : d.id = c.id) (log : d.world.log = c.world.log)
    (closed : d.pair.isClosed = c.pair.isClosed) : Tracks c d := by
  refine ⟨id, [], ?_, closed⟩
  rw [log, List.map_nil, List.append_nil]

theorem Tracks.used {c d : Ctx (Watched W)} {x : Side} (isOpen : c.pair.isClosed x = false)
    (id : d.id = c.id) (log : d.world.log = c.world.log ++ [((c.id, x), false)])
    (closed : d.pair.isClosed = c.pair.isClosed) : Tracks c d := by
  refine ⟨id, [(x, false)], log, ?_⟩
  rw [closed]
  exact .use isOpen

theorem Tracks.closed {c d : Ctx (Watched W)} {x : Side} (isOpen : c.pair.isClosed x = false)
    (id : d.id = c.id) (log : d.world.log = c.world.log ++ [((c.id, x), true)])
    (closed : d.pair.isClosed = Function.update c.pair.isClosed x true) : Tracks c d := by
  refine ⟨id, [(x, true)], log, ?_⟩
  rw [closed]
  exact .close isOpen

/-- Two links that differ in nothing that says whether they may be used. -/
structure Link.Like (l m : Link) : Prop where
  readable : m.readable = l.readable
  writable : m.writable = l.writable
  closes : m.closes = l.closes

theorem Link.Like.refl (l : Link) : l.Like l := ⟨rfl, rfl, rfl⟩

theorem Link.Like.trans {l m n : Link} (first : l.Like m) (second : m.Like n) : l.Like n :=
  ⟨second.readable.trans first.readable, second.writable.trans first.writable,
    second.closes.trans first.closes⟩

theorem Link.Like.isOpen {l m : Link} (like : l.Like m) : m.isOpen = l.isOpen := by
  unfold Link.isOpen
  rw [like.readable, like.writable]

theorem Link.Like.isClosed {l m : Link} (like : l.Like m) : m.isClosed = l.isClosed := by
  unfold Link.isClosed
  rw [like.closes]

/-- What the methods do that neither close a socket nor touch a flag. -/
def Spares (c d : Ctx (Watched W)) : Prop :=
  Tracks c d ∧ ∀ x, (c.pair.link x).Like (d.pair.link x)

theorem isClosed_of_like {p q : Pair} (like : ∀ x, (p.link x).Like (q.link x)) :
    q.isClosed = p.isClosed := funext fun x => (like x).isClosed

theorem Spares.isClosed {c d : Ctx (Watched W)} (spares : Spares c d) :
    d.pair.isClosed = c.pair.isClosed := isClosed_of_like spares.2

theorem Spares.quiet {c d : Ctx (Watched W)} (id : d.id = c.id) (log : d.world.log = c.world.log)
    (like : ∀ x, (c.pair.link x).Like (d.pair.link x)) : Spares c d :=
  ⟨.quiet id log (isClosed_of_like like), like⟩

theorem Spares.refl (c : Ctx (Watched W)) : Spares c c := .quiet rfl rfl fun _ => .refl _

theorem Spares.used {c d : Ctx (Watched W)} {x : Side} (isOpen : c.pair.isClosed x = false)
    (id : d.id = c.id) (log : d.world.log = c.world.log ++ [((c.id, x), false)])
    (like : ∀ x, (c.pair.link x).Like (d.pair.link x)) : Spares c d :=
  ⟨.used isOpen id log (isClosed_of_like like), like⟩

theorem Spares.trans {c d e : Ctx (Watched W)} (first : Spares c d) (second : Spares d e) :
    Spares c e := ⟨first.1.trans second.1, fun x => (first.2 x).trans (second.2 x)⟩

instance : Trans (Spares (W := W)) Spares Spares := ⟨Spares.trans⟩

/-- What the methods do to a pair whose open links have their sockets. -/
def Plays (c d : Ctx (Watched W)) : Prop := c.pair.Fair → Tracks c d ∧ d.pair.Fair

instance : Trans (Plays (W := W)) Plays Plays :=
  ⟨fun first second fair =>
    have middle := first fair
    have last := second middle.2
    ⟨middle.1.trans last.1, last.2⟩⟩

/-- A pair may be taken to be fair to begin with. -/
theorem Plays.of_fair {α : Type} {m : Exec (Watched W) α} {c : Ctx (Watched W)}
    (plays : c.pair.Fair → Relates Plays m c) : Relates Plays m c :=
  Relates.of_imp (R := fun c d => Tracks c d ∧ d.pair.Fair) plays

theorem Spares.plays {c d : Ctx (Watched W)} (spares : Spares c d) : Plays c d := by
  refine fun fair => ⟨spares.1, fun x isOpen => ?_⟩
  rw [spares.isClosed]
  exact fair x ((spares.2 x).isOpen.symm.trans isOpen)

theorem like_set {p : Pair} {x : Side} {l : Link} (like : (p.link x).Like l) (y : Side) :
    (p.link y).Like ((p.set x l).link y) := by
  refine (Side.forall_iff (P := fun y => (p.link y).Like ((p.set x l).link y)) x).mpr ⟨?_, ?_⟩ y
  · rw [Pair.link_set]
    exact like
  · rw [Pair.link_other_set]
    exact .refl _

theorem like_set_both {p : Pair} {x : Side} {l m : Link} (here : (p.link x).Like l)
    (there : (p.link x.other).Like m) (y : Side) :
    (p.link y).Like (((p.set x l).set x.other m).link y) := by
  refine (like_set here y).trans (like_set ?_ y)
  rwa [Pair.link_other_set]

theorem Spares.set {c : Ctx (Watched W)} {x : Side} {l : Link} (like : (c.pair.link x).Like l) :
    Spares c { c with pair := c.pair.set x l } := .quiet rfl rfl (like_set like)

theorem Counts.spares {c d : Ctx (Watched W)} (counts : Counts c d) : Spares c d := by
  refine .quiet counts.id (congrArg _ counts.world) fun x => ?_
  exact ⟨(counts.links x).readable, (counts.links x).writable, (counts.links x).closes⟩

theorem spares_get (x : Side) (c : Ctx (Watched W)) : Relates Spares (get x) c :=
  (counts_get x c).mono Counts.spares

theorem spares_check (condition : Prop) [Decidable condition] (c : Ctx (Watched W)) :
    Relates Spares (check condition) c := (counts_check condition c).mono Counts.spares

theorem spares_put {x : Side} {l : Link} {c : Ctx (Watched W)} (like : (c.pair.link x).Like l) :
    Relates Spares (put x l) c := (holds_put x l).mpr (.set like)

theorem spares_other (x : Side) (c : Ctx (Watched W)) : Relates Spares (other x) c :=
  (counts_other x c).mono Counts.spares

theorem spares_delete (x : Side) (c : Ctx (Watched W)) : Relates Spares (delete x) c :=
  (counts_delete x c).mono Counts.spares

theorem spares_incRef (x : Side) (c : Ctx (Watched W)) : Relates Spares (incRef x) c :=
  (counts_incRef x c).mono Counts.spares

theorem spares_decRef (x : Side) (c : Ctx (Watched W)) : Relates Spares (decRef x) c :=
  (counts_decRef x c).mono Counts.spares

theorem spares_hold (x : Side) (c : Ctx (Watched W)) : Relates Spares (hold x) c :=
  (counts_hold x c).mono Counts.spares

theorem spares_release (x : Side) (c : Ctx (Watched W)) : Relates Spares (release x) c :=
  (counts_release x c).mono Counts.spares

variable (k : Kernel W)

theorem spares_now (c : Ctx (Watched W)) : Relates Spares (now k.watched) c := by
  simp only [Relates, now, Exec.holds_bind, holds_ctx, holds_setCtx, Exec.holds_pure]
  exact .quiet rfl rfl fun _ => .refl _

theorem spares_refreshLoop (x : Side) (c : Ctx (Watched W)) :
    Relates Spares (refreshLoop k.watched x) c := by
  refine (spares_get x c).bind fun l d _ _ => (spares_now k d).bind fun time e _ _ => ?_
  simp only [Relates, Exec.holds_bind, holds_ctx]
  split
  · exact .refl e
  · exact .refl e
  · exact .quiet rfl rfl fun _ => .refl _

theorem spares_refresh (x : Side) (c : Ctx (Watched W)) :
    Relates Spares (refresh k.watched x) c := by
  refine (spares_get x c).bind fun l d _ _ => ?_
  split
  · exact spares_refreshLoop k x d
  · exact Spares.refl d

theorem spares_call {x : Side} {syscall : Call} {c : Ctx (Watched W)}
    (isOpen : c.pair.isClosed x = false) (spares : syscall.closes = false) :
    Relates Spares (call k.watched x syscall) c := by
  refine (holds_call _ x syscall).mpr (.used isOpen rfl ?_ fun _ => .refl _)
  show c.world.log ++ [((c.id, x), syscall.closes)] = _
  rw [spares]

theorem spares_add {x : Side} {events : Events} {c : Ctx (Watched W)}
    (isOpen : c.pair.isClosed x = false) : Relates Spares (add k.watched x events) c := by
  refine (spares_get x c).bind fun l d ran _ => ?_
  obtain ⟨rfl, rfl⟩ := get_ok ran
  refine (spares_now k d).bind fun time e ran passed => ?_
  have same : e.pair = d.pair := by
    have known : Holds (now k.watched) (fun _ _ => True) (fun _ e => e.pair = d.pair) d := by
      simp only [now, Exec.holds_bind, holds_ctx, holds_setCtx, Exec.holds_pure]
    exact known.ok ran
  simp only [Relates, Exec.holds_bind, holds_ctx]
  split
  · exact .refl e
  · simp only [Exec.holds_bind, holds_setCtx, holds_call]
    refine .used ((congrFun passed.isClosed x).trans isOpen) rfl rfl (like_set ?_)
    rw [same]
    exact ⟨rfl, rfl, rfl⟩

theorem spares_remove {x : Side} {c : Ctx (Watched W)} (isOpen : c.pair.isClosed x = false) :
    Relates Spares (remove k.watched x) c := by
  refine (spares_get x c).bind fun l d ran _ => ?_
  obtain ⟨rfl, rfl⟩ := get_ok ran
  simp only [Relates, Exec.holds_bind, holds_ctx]
  split
  · exact .refl d
  · simp only [Exec.holds_bind, holds_setCtx, holds_call]
    exact (spares_decRef x _).after (.used isOpen rfl rfl (like_set ⟨rfl, rfl, rfl⟩))

theorem spares_modify {x : Side} {events : Events} {c : Ctx (Watched W)}
    (isOpen : c.pair.isClosed x = false) : Relates Spares (modify k.watched x events) c := by
  refine (spares_get x c).bind fun l d ran _ => ?_
  obtain ⟨rfl, rfl⟩ := get_ok ran
  simp only [Relates, Exec.holds_bind, holds_ctx]
  split
  · exact .refl d
  · simp only [Exec.holds_bind, holds_put, holds_call]
    exact .used isOpen rfl rfl (like_set ⟨rfl, rfl, rfl⟩)

theorem spares_writeFrom {x : Side} {c : Ctx (Watched W)}
    (isOpen : c.pair.isClosed x.other = false) : Relates Spares (writeFrom k.watched x) c := by
  refine (spares_get x c).bind fun l d ran _ => ?_
  obtain ⟨rfl, rfl⟩ := get_ok ran
  refine (spares_get x.other d).bind fun m e ran _ => ?_
  obtain ⟨rfl, rfl⟩ := get_ok ran
  simp only [Relates, Exec.holds_bind, holds_check_iff, Exec.holds_ite, Exec.holds_pure, holds_ctx,
    Kernel.watched]
  refine ⟨fun _ => ⟨fun _ => ⟨fun _ => .refl e, fun _ => ?_⟩, fun _ => .refl e⟩, fun _ => .refl e⟩
  cases k.splice_in e.world.world (e.id, x.other) (e.pair.link x).out.size
      ((e.pair.link x).out.capacity - (e.pair.link x).out.size) with
  | none => exact .refl e
  | some result =>
      obtain ⟨answer, world⟩ := result
      have asked : ∀ {p : Pair}, (∀ y, (e.pair.link y).Like (p.link y)) →
          Spares e { e with world := e.world.use world (e.id, x.other) false, pair := p } :=
        fun like => .used isOpen rfl rfl like
      simp only [Option.map_some, Exec.holds_bind, holds_setCtx]
      cases answer with
      | again => exact asked fun _ => .refl _
      | error =>
          simp only [Exec.holds_bind, holds_put, Exec.holds_pure]
          exact asked (like_set ⟨rfl, rfl, rfl⟩)
      | eof =>
          simp only [Exec.holds_bind, holds_put, Exec.holds_pure]
          exact asked (like_set_both ⟨rfl, rfl, rfl⟩ ⟨rfl, rfl, rfl⟩)
      | data bytes more fits =>
          have moved := like_set_both (p := e.pair) (x := x)
            (l := { e.pair.link x with out := { (e.pair.link x).out with
              content := (e.pair.link x).out.content ++ bytes
              size := (e.pair.link x).out.size + bytes.length } })
            (m := { e.pair.link x.other with received := (e.pair.link x.other).received ++ bytes })
            ⟨rfl, rfl, rfl⟩ ⟨rfl, rfl, rfl⟩
          simp only [Exec.holds_bind, holds_put, Exec.holds_pure, holds_check_iff]
          exact ⟨fun _ => asked moved, fun _ => asked moved⟩

theorem spares_readTo {x : Side} {c : Ctx (Watched W)} (isOpen : c.pair.isClosed x = false) :
    Relates Spares (readTo k.watched x) c := by
  refine (spares_get x c).bind fun l d ran _ => ?_
  obtain ⟨rfl, rfl⟩ := get_ok ran
  simp only [Relates, Exec.holds_bind, holds_check_iff, Exec.holds_ite, Exec.holds_pure, holds_put,
    holds_ctx, Kernel.watched]
  refine ⟨fun _ => ⟨fun _ => ⟨fun _ => .refl d, fun _ => .set ⟨rfl, rfl, rfl⟩⟩, fun _ => ?_⟩,
    fun _ => .refl d⟩
  cases k.write_blocks d.world.world (d.id, x) with
  | none => exact .refl d
  | some result =>
      obtain ⟨blocks, world⟩ := result
      have written : Spares d { d with world := d.world.use world (d.id, x) false } :=
        .used isOpen rfl rfl fun _ => .refl _
      simp only [Option.map_some]
      cases blocks with
      | true => exact written
      | false =>
          simp only [Exec.holds_bind, holds_setCtx, holds_ctx]
          cases k.splice_out (d.world.use world (d.id, x) false).world (d.id, x)
              (d.pair.link x).out.size with
          | none => exact written
          | some result =>
              obtain ⟨answer, world'⟩ := result
              have asked : ∀ {p : Pair}, (∀ y, (d.pair.link y).Like (p.link y)) → Spares d { d with
                  world := (d.world.use world (d.id, x) false).use world' (d.id, x) false
                  pair := p } :=
                fun like => written.trans (.used isOpen rfl rfl like)
              simp only [Option.map_some, Exec.holds_bind, holds_setCtx]
              cases answer with
              | again wiped =>
                  simp only [Exec.holds_ite, Exec.holds_bind, holds_put, Exec.holds_pure]
                  exact ⟨fun _ => asked (like_set ⟨rfl, rfl, rfl⟩),
                    fun _ => asked (like_set ⟨rfl, rfl, rfl⟩)⟩
              | error wiped =>
                  simp only [Exec.holds_bind, holds_put, Exec.holds_pure]
                  exact asked (like_set ⟨rfl, rfl, rfl⟩)
              | sent n more fits =>
                  simp only [Exec.holds_bind, holds_put, Exec.holds_pure, holds_check_iff]
                  exact ⟨fun _ => asked (like_set ⟨rfl, rfl, rfl⟩),
                    fun _ => asked (like_set ⟨rfl, rfl, rfl⟩)⟩

theorem Pair.isClosed_set {p : Pair} {x : Side} {l : Link} (closes : l.closes = (p.link x).closes) :
    (p.set x l).isClosed = p.isClosed := by
  have same : ∀ y, (p.set x l).isClosed y = p.isClosed y := by
    refine (Side.forall_iff x).mpr ⟨?_, ?_⟩
    · simp only [isClosed, link_set, Link.isClosed, closes]
    · simp only [isClosed, link_other_set]
  exact funext same

theorem Pair.isClosed_close {p : Pair} {x : Side} {l : Link} (closes : 0 < l.closes) :
    (p.set x l).isClosed = Function.update p.isClosed x true := by
  have same : ∀ y, (p.set x l).isClosed y = Function.update p.isClosed x true y := by
    refine (Side.forall_iff x).mpr ⟨?_, ?_⟩
    · simp [isClosed, Link.isClosed, closes]
    · simp [isClosed]
  exact funext same

/-- Flags of a link may be taken back. -/
theorem Plays.lower {c : Ctx (Watched W)} {x : Side} {l : Link}
    (closes : l.closes = (c.pair.link x).closes)
    (less : l.isOpen = true → (c.pair.link x).isOpen = true) :
    Plays c { c with pair := c.pair.set x l } := by
  intro fair
  have same : (c.pair.set x l).isClosed = c.pair.isClosed := Pair.isClosed_set closes
  refine ⟨.quiet rfl rfl same, (Side.forall_iff x).mpr ⟨?_, ?_⟩⟩
  · intro isOpen
    rw [same]
    rw [Pair.link_set] at isOpen
    exact fair x (less isOpen)
  · intro isOpen
    rw [same]
    rw [Pair.link_other_set] at isOpen
    exact fair x.other isOpen

/-- The last thing that is done to a socket. -/
theorem Plays.close {c : Ctx (Watched W)} {x : Side} {l : Link} (world : W)
    (isOpen : c.pair.isClosed x = false) (closed : l.isOpen = false) (closes : 0 < l.closes) :
    Plays c { c with
      world := c.world.use world (c.id, x) true, pair := c.pair.set x l } := by
  intro fair
  refine ⟨.closed isOpen rfl rfl (Pair.isClosed_close closes), (Side.forall_iff x).mpr ⟨?_, ?_⟩⟩
  · intro still
    rw [Pair.link_set, closed] at still
    cases still
  · intro still
    rw [Pair.link_other_set] at still
    rw [Pair.isClosed, Pair.link_other_set]
    exact fair x.other still

theorem plays_close (x : Side) (c : Ctx (Watched W)) : Relates Plays (close k.watched x) c := by
  refine Plays.of_fair fun fair => ?_
  refine (spares_get x c).bind_of Spares.plays fun l d ran _ => ?_
  obtain ⟨rfl, rfl⟩ := get_ok ran
  split
  · rename_i isOpen
    have lowered : Plays d { d with
        pair := d.pair.set x { d.pair.link x with readable := false, writable := false } } :=
      .lower rfl nofun
    rw [Relates, Exec.holds_bind, holds_put]
    refine Relates.after ?_ lowered
    refine (spares_other x _).bind_of Spares.plays fun y e _ first => ?_
    refine (spares_decRef y e).bind_of Spares.plays fun _ f _ second => ?_
    have unclosed : f.pair.isClosed x = false := by
      rw [second.isClosed, first.isClosed, Pair.isClosed_set]
      · exact fair x isOpen
      · rfl
    refine (spares_remove k unclosed).bind_of Spares.plays fun _ g _ third => ?_
    refine (spares_get x g).bind_of Spares.plays fun l h ran _ => ?_
    obtain ⟨rfl, rfl⟩ := get_ok ran
    have like := ((first.2 x).trans (second.2 x)).trans (third.2 x)
    rw [Pair.link_set] at like
    rw [Relates, Exec.holds_bind, holds_put, holds_call]
    refine .close _ ?_ like.isOpen (Nat.succ_pos _)
    exact (congrFun third.isClosed x).trans unclosed
  · exact (Spares.refl d).plays

theorem plays_terminate (x : Side) (c : Ctx (Watched W)) :
    Relates Plays (terminate k.watched x) c := by
  have marked : Spares c { c with pair := { c.pair with terminated := true } } :=
    .quiet rfl rfl fun y => by cases y <;> exact .refl _
  rw [Relates, terminate, Exec.holds_bind, holds_ctx, Exec.holds_bind, holds_setCtx]
  refine Relates.after ?_ marked.plays
  refine (plays_close k x _).bind fun _ d _ _ => ?_
  exact (spares_other x d).bind_of Spares.plays fun y e _ _ => plays_close k y e

theorem plays_closeForReading (x : Side) (c : Ctx (Watched W)) :
    Relates Plays (closeForReading k.watched x) c := by
  refine Plays.of_fair fun fair => ?_
  refine (spares_get x c).bind_of Spares.plays fun l d ran _ => ?_
  obtain ⟨rfl, rfl⟩ := get_ok ran
  refine (spares_check _ d).bind_of Spares.plays fun _ e ran _ => ?_
  obtain rfl := check_ok ran
  split
  · rename_i writable
    have isOpen : (e.pair.link x).isOpen = true := by simp [Link.isOpen, writable]
    have unclosed : (e.pair.set x { e.pair.link x with readable := false }).isClosed x = false := by
      rw [Pair.isClosed_set]
      · exact fair x isOpen
      · rfl
    rw [Relates, Exec.holds_bind, holds_put]
    refine Relates.after ?_ (.lower rfl fun _ => isOpen)
    refine (spares_modify k unclosed).bind_of Spares.plays fun _ f _ modified => ?_
    exact (spares_call k ((congrFun modified.isClosed x).trans unclosed) rfl).mono Spares.plays
  · exact plays_close k x e

theorem plays_closeForWriting (x : Side) (c : Ctx (Watched W)) :
    Relates Plays (closeForWriting k.watched x) c := by
  refine (spares_get x c).bind_of Spares.plays fun l d ran _ => ?_
  obtain ⟨rfl, rfl⟩ := get_ok ran
  refine (spares_check _ d).bind_of Spares.plays fun _ e ran _ => ?_
  obtain rfl := check_ok ran
  refine (spares_put ?_).bind_of Spares.plays fun _ f _ _ => ?_
  · exact ⟨rfl, rfl, rfl⟩
  refine Plays.of_fair fun fair => ?_
  refine (spares_get x f).bind_of Spares.plays fun l g ran _ => ?_
  obtain ⟨rfl, rfl⟩ := get_ok ran
  split
  · rename_i readable
    have isOpen : (g.pair.link x).isOpen = true := by simp [Link.isOpen, readable]
    have unclosed : (g.pair.set x { g.pair.link x with writable := false }).isClosed x = false := by
      rw [Pair.isClosed_set]
      · exact fair x isOpen
      · rfl
    rw [Relates, Exec.holds_bind, holds_put]
    refine Relates.after ?_ (.lower rfl fun _ => isOpen)
    refine (spares_modify k unclosed).bind_of Spares.plays fun _ h _ modified => ?_
    exact (spares_call k ((congrFun modified.isClosed x).trans unclosed) rfl).mono Spares.plays
  · exact plays_close k x g

theorem plays_fill (x : Side) (c : Ctx (Watched W)) : Relates Plays (fill k.watched x) c := by
  refine Plays.of_fair fun fair => ?_
  refine (spares_other x c).bind_of Spares.plays fun y d ran _ => ?_
  obtain ⟨rfl, rfl⟩ := other_ok ran
  refine (spares_get x.other d).bind_of Spares.plays fun m e ran _ => ?_
  obtain ⟨rfl, rfl⟩ := get_ok ran
  split
  · rename_i readable
    have unclosed := fair x.other (by simp [Link.isOpen, readable])
    refine (spares_writeFrom k unclosed).bind_of Spares.plays fun status f _ _ => ?_
    have same := (Spares.refl f).plays
    cases status with
    | data | noOp => exact same
    | eof => exact (plays_closeForReading k x.other f).bind fun _ g _ _ => (Spares.refl g).plays
    | error => exact (plays_terminate k x f).bind fun _ g _ _ => (Spares.refl g).plays
  · exact (Spares.refl e).plays

theorem plays_drain (x : Side) (c : Ctx (Watched W)) : Relates Plays (drain k.watched x) c := by
  refine Plays.of_fair fun fair => ?_
  refine (spares_get x c).bind_of Spares.plays fun l d ran _ => ?_
  obtain ⟨rfl, rfl⟩ := get_ok ran
  split
  · rename_i writable
    have unclosed := fair x (by simp [Link.isOpen, writable])
    refine (spares_readTo k unclosed).bind_of Spares.plays fun status f _ _ => ?_
    have same := (Spares.refl f).plays
    cases status with
    | data | noOp => exact same
    | eof => exact (plays_closeForWriting k x f).bind fun _ g _ _ => (Spares.refl g).plays
    | error => exact (plays_terminate k x f).bind fun _ g _ _ => (Spares.refl g).plays
  · exact (Spares.refl d).plays

theorem plays_forward (x : Side) (fuel : ℕ) (res : Bool) (c : Ctx (Watched W)) :
    Relates Plays (forward k.watched x fuel res) c := by
  induction fuel generalizing res c with
  | zero => exact (Spares.refl c).plays
  | succ fuel ih =>
      refine (plays_fill k x c).bind fun filled d _ _ => ?_
      cases filled with
      | none => exact (Spares.refl d).plays
      | some filled =>
          refine (plays_drain k x d).bind fun drained e _ _ => ?_
          cases drained with
          | none => exact (Spares.refl e).plays
          | some drained =>
              simp only
              split
              · exact ih true e
              · exact (Spares.refl e).plays

theorem plays_process (fuel : ℕ) (x : Side) (events : Events) (leftFirst : Bool)
    (c : Ctx (Watched W)) : Relates Plays (process k.watched fuel x events leftFirst) c := by
  have out : ∀ d, Relates Plays (if hasBits events EPOLLOUT then forwardFromOther k.watched fuel x
      else pure false) d := by
    intro d
    split
    · exact plays_forward k x fuel false d
    · exact (Spares.refl d).plays
  have into : ∀ d, Relates Plays (if hasBits events EPOLLIN then do
      forwardFromOther k.watched fuel (← other x) else pure false) d := by
    intro d
    split
    · exact (spares_other x d).bind_of Spares.plays fun y e _ _ =>
        plays_forward k y fuel false e
    · exact (Spares.refl d).plays
  simp only [process]
  split
  · exact (plays_terminate k x c).bind fun _ d _ _ => (Spares.refl d).plays
  · split
    · exact (out c).bind fun _ d _ _ => (into d).bind fun _ e _ _ => (Spares.refl e).plays
    · exact (into c).bind fun _ d _ _ => (out d).bind fun _ e _ _ => (Spares.refl e).plays

theorem plays_release_other (x : Side) (c : Ctx (Watched W)) :
    Relates Plays (do release (← other x)) c :=
  (spares_other x c).bind_of Spares.plays fun y d _ _ => (spares_release y d).mono Spares.plays

theorem plays_onEvent (fuel : ℕ) (x : Side) (events : Events) (leftFirst : Bool)
    (c : Ctx (Watched W)) : Relates Plays (onEvent k.watched fuel x events leftFirst) c := by
  refine (spares_other x c).bind_of Spares.plays fun y d _ _ => ?_
  refine (spares_hold y d).bind_of Spares.plays fun _ e _ _ => ?_
  refine (plays_process k fuel x events leftFirst e).bind fun active f _ _ => ?_
  split
  · refine (spares_refresh k x f).bind_of Spares.plays fun _ g _ _ => ?_
    refine (spares_other x g).bind_of Spares.plays fun y h _ _ => ?_
    exact (spares_refresh k y h).bind_of Spares.plays fun _ i _ _ => plays_release_other x i
  · exact plays_release_other x f

theorem plays_onTimeout (x : Side) (c : Ctx (Watched W)) :
    Relates Plays (onTimeout k.watched x) c := by
  refine (spares_other x c).bind_of Spares.plays fun y d _ _ => ?_
  refine (spares_hold y d).bind_of Spares.plays fun _ e _ _ => ?_
  exact (plays_terminate k x e).bind fun _ f _ _ => plays_release_other x f

theorem plays_dispatch (fuel : ℕ) (x : Side) (events : Events) (leftFirst : Bool)
    (c : Ctx (Watched W)) : Relates Plays (dispatch k.watched fuel x events leftFirst) c := by
  have finish : ∀ d : Ctx (Watched W), Relates Plays (release x) d :=
    fun d => (spares_release x d).mono Spares.plays
  refine (spares_get x c).bind_of Spares.plays fun l d _ _ => ?_
  split
  · exact (plays_onEvent k fuel x events leftFirst d).bind fun _ e _ _ => finish e
  · exact finish d

theorem plays_expire (x : Side) (c : Ctx (Watched W)) : Relates Plays (expire k.watched x) c := by
  have finish : ∀ d : Ctx (Watched W), Relates Plays (release x) d :=
    fun d => (spares_release x d).mono Spares.plays
  refine (spares_get x c).bind_of Spares.plays fun l d _ _ => ?_
  refine (spares_check _ d).bind_of Spares.plays fun _ e _ _ => ?_
  refine (spares_hold x e).bind_of Spares.plays fun _ f _ _ => ?_
  refine (plays_onTimeout k x f).bind fun _ g _ _ => ?_
  refine (spares_get x g).bind_of Spares.plays fun l h _ _ => ?_
  split
  · exact (spares_refreshLoop k x h).bind_of Spares.plays fun _ i _ _ => finish i
  · exact finish h

theorem plays_discard {x : Side} {c : Ctx (Watched W)} (alive : (c.pair.link x).deleted = false)
    (isOpen : (c.pair.link x).isOpen = true) : Relates Plays (discard k.watched x) c := by
  refine Plays.of_fair fun fair => ?_
  rw [Relates, discard, Exec.holds_bind, holds_call, Exec.holds_bind]
  refine holds_get.mpr ⟨fun gone => ?_, fun _ => ?_⟩
  · rw [alive] at gone
    cases gone
  · rw [Exec.holds_bind, holds_put]
    refine Relates.after ((spares_delete x _).mono Spares.plays) ?_
    exact .close _ (fair x isOpen) rfl (Nat.succ_pos _)

theorem init_watched {onStop : Stop → Ctx (Watched W) → Prop} {post : Bool → Ctx (Watched W) → Prop}
    {c : Ctx (Watched W)} {x : Side} (size_bytes : BufferSize)
    (alive : (c.pair.link x).deleted = false)
    (fails : ∀ world, post false { c with world := { c.world with world } })
    (succeeds : ∀ world capacity, post true { c with
      world := { c.world with world }
      pair := c.pair.set x ((c.pair.link x).piped capacity) }) :
    Holds (init k.watched x size_bytes) onStop post c := by
  simp only [init, Exec.holds_bind, holds_link alive, holds_ctx, Kernel.watched]
  cases (k.pipe c.world.world size_bytes.1).1 with
  | none => exact fails _
  | some capacity => exact succeeds _ capacity.1

theorem spares_write (x : Side) (data : Bytes) (c : Ctx (Watched W)) :
    Relates Spares (write x data) c := by
  refine (spares_get x c).bind fun l d ran _ => ?_
  obtain ⟨rfl, rfl⟩ := get_ok ran
  refine (spares_check _ d).bind fun _ e ran _ => ?_
  obtain rfl := check_ok ran
  refine (spares_check _ e).bind fun _ f ran _ => ?_
  obtain rfl := check_ok ran
  refine (spares_check _ f).bind fun _ g ran _ => ?_
  obtain rfl := check_ok ran
  refine (spares_put ?_).bind fun _ h _ _ => spares_check _ h
  exact ⟨rfl, rfl, rfl⟩

/-- The part of `New` that needs both pipes. -/
theorem plays_join {c : Ctx (Watched W)} (unclosed : ∀ x, c.pair.isClosed x = false) :
    Relates Plays (do
      let c ← ctx
      setCtx { c with pair := { c.pair with linked := true } }
      incRef .client
      incRef .server
      add k.watched .client (EPOLLIN ||| EPOLLOUT ||| EPOLLET)
      add k.watched .server (EPOLLIN ||| EPOLLOUT ||| EPOLLET)
      write .client kResponse) c := by
  have linked : Spares c { c with pair := { c.pair with linked := true } } :=
    .quiet rfl rfl fun x => by cases x <;> exact .refl _
  rw [Relates, Exec.holds_bind, holds_ctx, Exec.holds_bind, holds_setCtx]
  refine Relates.after (Relates.mono ?_ Spares.plays) linked.plays
  refine (spares_incRef .client _).bind fun _ d _ first => ?_
  refine (spares_incRef .server d).bind fun _ e _ second => ?_
  have before := (linked.trans first).trans second
  refine (spares_add k ?_).bind fun _ f _ third => ?_
  · rw [before.isClosed]
    exact unclosed .client
  refine (spares_add k ?_).bind fun _ g _ _ => spares_write .client kResponse g
  rw [third.isClosed, before.isClosed]
  exact unclosed .server

/-- The part of `New` for when there are no pipes. -/
theorem plays_giveUp {c : Ctx (Watched W)} (fresh : ∀ x, (c.pair.link x).Fresh)
    (isOpen : ∀ x, (c.pair.link x).isOpen = true) :
    Relates Plays (do discard k.watched .client; discard k.watched .server) c := by
  refine (plays_discard k (fresh .client).alive (isOpen .client)).bind fun _ d ran _ => ?_
  have known : Holds (discard k.watched .client) (fun _ _ => True)
      (fun _ d => d.pair.link .server = c.pair.link .server) c :=
    discard_spec k.watched (fresh .client) fun world => Pair.link_other_set c.pair .client _
  have same := known.ok ran
  refine plays_discard k ?_ ?_
  · rw [same]
    exact (fresh .server).alive
  · rw [same]
    exact isOpen .server

theorem plays_new (opt : Options) {c : Ctx (Watched W)} (made : c.pair = {}) :
    Relates Plays (new k.watched opt) c := by
  obtain ⟨id, pair, loop, clock, world⟩ := c
  subst made
  have fresh : Link.Fresh {} := ⟨rfl, rfl, rfl, rfl, rfl, rfl, rfl, rfl, rfl, rfl, rfl, rfl⟩
  have piped : ∀ capacity, (Link.piped {} capacity).Fresh :=
    fun _ => ⟨rfl, rfl, rfl, rfl, rfl, rfl, rfl, rfl, rfl, rfl, rfl, rfl⟩
  have like : ∀ capacity, Link.Like {} (Link.piped {} capacity) := fun _ => ⟨rfl, rfl, rfl⟩
  rw [Relates, new, Exec.holds_bind, Exec.holds_bind]
  refine init_watched k _ rfl (fun world => ?_) fun world a => ?_
  · rw [if_neg Bool.false_ne_true, Exec.holds_pure, if_neg Bool.false_ne_true]
    refine Relates.after (plays_giveUp k ?_ ?_) (Spares.plays (.quiet rfl rfl ?_))
    · exact Side.both fresh fresh
    · exact Side.both rfl rfl
    · exact fun x => .refl _
  rw [if_pos rfl]
  refine init_watched k _ rfl (fun world => ?_) fun world b => ?_
  · rw [if_neg Bool.false_ne_true]
    refine Relates.after (plays_giveUp k ?_ ?_) (Spares.plays (.quiet rfl rfl ?_))
    · exact Side.both (piped a) fresh
    · exact Side.both rfl rfl
    · exact Side.both (like a) (.refl _)
  · rw [if_pos rfl]
    refine Relates.after (plays_join k ?_) (Spares.plays (.quiet rfl rfl ?_))
    · exact Side.both rfl rfl
    · exact Side.both (like a) (like b)

end Hcproxy.Forwarder
