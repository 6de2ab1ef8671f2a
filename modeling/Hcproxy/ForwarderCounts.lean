import Hcproxy.ForwarderLinks

set_option autoImplicit false

namespace Hcproxy.Forwarder

open Exec (Relates)

variable {W : Type} {c d : Ctx W}

/-- Two links that differ in their references at most, and in whether they have been deleted. -/
structure Link.Counts (l m : Link) : Prop where
  readable : m.readable = l.readable
  writable : m.writable = l.writable
  closes : m.closes = l.closes
  received : m.received = l.received
  delivered : m.delivered = l.delivered
  eof : m.eof = l.eof
  finished : m.finished = l.finished
  size : m.out.size = l.out.size
  capacity : m.out.capacity = l.out.capacity
  writeEnd : l.out.writeEnd = false → m.out.writeEnd = false

theorem Link.Counts.refl (l : Link) : l.Counts l :=
  ⟨rfl, rfl, rfl, rfl, rfl, rfl, rfl, rfl, rfl, id⟩

theorem Link.Counts.trans {l m n : Link} (first : l.Counts m) (second : m.Counts n) :
    l.Counts n :=
  ⟨second.readable.trans first.readable, second.writable.trans first.writable,
    second.closes.trans first.closes, second.received.trans first.received,
    second.delivered.trans first.delivered, second.eof.trans first.eof,
    second.finished.trans first.finished, second.size.trans first.size,
    second.capacity.trans first.capacity, fun closed => second.writeEnd (first.writeEnd closed)⟩

/-- What `IncRef` and `DecRef` may do, with `delete`. -/
structure Counts (c d : Ctx W) : Prop where
  id : d.id = c.id
  loop : d.loop = c.loop
  clock : d.clock = c.clock
  world : d.world = c.world
  linked : d.pair.linked = c.pair.linked
  terminated : d.pair.terminated = c.pair.terminated
  links : ∀ x, (c.pair.link x).Counts (d.pair.link x)

theorem Counts.refl (c : Ctx W) : Counts c c :=
  ⟨rfl, rfl, rfl, rfl, rfl, rfl, fun _ => .refl _⟩

theorem Counts.trans {e : Ctx W} (first : Counts c d) (second : Counts d e) : Counts c e :=
  ⟨second.id.trans first.id, second.loop.trans first.loop, second.clock.trans first.clock,
    second.world.trans first.world, second.linked.trans first.linked,
    second.terminated.trans first.terminated, fun x => (first.links x).trans (second.links x)⟩

instance : Trans (Counts (W := W)) Counts Counts := ⟨Counts.trans⟩

theorem counts_get (x : Side) (c : Ctx W) : Relates Counts (get x) c :=
  holds_get.mpr ⟨fun _ => .refl c, fun _ => .refl c⟩

theorem counts_check (condition : Prop) [Decidable condition] (c : Ctx W) :
    Relates Counts (check condition) c :=
  holds_check_iff.mpr ⟨fun _ => .refl c, fun _ => .refl c⟩

theorem counts_other (x : Side) (c : Ctx W) : Relates Counts (other x) c := by
  simp only [Relates, other, Exec.holds_bind, holds_get, holds_ctx, Exec.holds_ite,
    Exec.holds_pure, holds_stop]
  exact ⟨fun _ => .refl c, fun _ => ⟨fun _ => .refl c, fun _ => .refl c⟩⟩

theorem counts_put {x : Side} {l : Link} {c : Ctx W} (counts : (c.pair.link x).Counts l) :
    Relates Counts (put x l) c := by
  refine (holds_put x l).mpr ⟨rfl, rfl, rfl, rfl, Pair.set_linked _ _ _,
    Pair.set_terminated _ _ _, (Side.forall_iff x).mpr ⟨?_, ?_⟩⟩
  · rw [Pair.link_set]
    exact counts
  · rw [Pair.link_other_set]
    exact .refl _

theorem counts_delete (x : Side) (c : Ctx W) : Relates Counts (delete x) c := by
  refine (counts_get x c).bind fun l d ran _ => ?_
  obtain ⟨rfl, rfl⟩ := get_ok ran
  refine (counts_check _ d).bind fun _ e ran _ => ?_
  cases check_ok ran
  refine (counts_check _ d).bind fun _ e ran _ => ?_
  cases check_ok ran
  refine (counts_check _ d).bind fun _ e ran _ => ?_
  cases check_ok ran
  -- The end of the pipe that `delete` closes stays closed.
  exact counts_put ⟨rfl, rfl, rfl, rfl, rfl, rfl, rfl, rfl, rfl, fun _ => rfl⟩

theorem counts_incRef (x : Side) (c : Ctx W) : Relates Counts (incRef x) c := by
  refine (counts_get x c).bind fun l d ran _ => ?_
  obtain ⟨rfl, rfl⟩ := get_ok ran
  exact counts_put ⟨rfl, rfl, rfl, rfl, rfl, rfl, rfl, rfl, rfl, id⟩

theorem counts_decRef (x : Side) (c : Ctx W) : Relates Counts (decRef x) c := by
  refine (counts_get x c).bind fun l d ran _ => ?_
  obtain ⟨rfl, rfl⟩ := get_ok ran
  refine (counts_check _ d).bind fun _ e ran _ => ?_
  cases check_ok ran
  refine (counts_put ?_).bind fun _ e _ _ => ?_
  · exact ⟨rfl, rfl, rfl, rfl, rfl, rfl, rfl, rfl, rfl, id⟩
  · split
    · exact counts_delete x e
    · exact .refl e

theorem counts_hold (x : Side) (c : Ctx W) : Relates Counts (hold x) c := by
  refine (counts_incRef x c).bind fun _ d _ _ => (counts_get x d).bind fun l e ran _ => ?_
  obtain ⟨rfl, rfl⟩ := get_ok ran
  exact counts_put ⟨rfl, rfl, rfl, rfl, rfl, rfl, rfl, rfl, rfl, id⟩

theorem counts_release (x : Side) (c : Ctx W) : Relates Counts (release x) c := by
  refine (counts_get x c).bind fun l d ran _ => ?_
  obtain ⟨rfl, rfl⟩ := get_ok ran
  refine (counts_put ?_).bind fun _ e _ _ => counts_decRef x e
  exact ⟨rfl, rfl, rfl, rfl, rfl, rfl, rfl, rfl, rfl, id⟩

end Hcproxy.Forwarder
