import Hcproxy.ForwarderEdges

set_option autoImplicit false

namespace Hcproxy.Forwarder

open Exec (Holds)

/-- What arrivals can do to a socket. -/
structure Socket.Arrived (s t : Socket) : Prop where
  mask : t.mask = s.mask
  ready : s.ready = true → t.ready = true
  news : t.ready = true → s.ready = true ∨ hasBits s.mask EPOLLIN = false ∨ t.edgeIn = true
  edgeIn : s.edgeIn = true → t.edgeIn = true
  edgeOut : s.edgeOut = true → t.edgeOut = true
  room : s.room = true → t.room = true
  space : t.room = true →
    s.room = true ∨ s.nospace = false ∨ hasBits s.mask EPOLLOUT = false ∨ t.edgeOut = true
  nospace : t.room = false → t.nospace = s.nospace
  deniedIn : t.deniedIn = s.deniedIn
  deniedOut : t.deniedOut = s.deniedOut

theorem Socket.Arrived.refl (s : Socket) : s.Arrived s :=
  ⟨rfl, id, Or.inl, id, id, id, Or.inl, fun _ => rfl, rfl, rfl⟩

theorem Socket.Arrived.trans {s t u : Socket} (first : s.Arrived t) (second : t.Arrived u) :
    s.Arrived u := by
  refine ⟨second.mask.trans first.mask, fun ready => second.ready (first.ready ready), ?_,
    fun edge => second.edgeIn (first.edgeIn edge), fun edge => second.edgeOut (first.edgeOut edge),
    fun room => second.room (first.room room), ?_, ?_, second.deniedIn.trans first.deniedIn,
    second.deniedOut.trans first.deniedOut⟩
  · intro ready
    rcases second.news ready with before | unregistered | edge
    · rcases first.news before with before | unregistered | edge
      · exact Or.inl before
      · exact Or.inr (Or.inl unregistered)
      · exact Or.inr (Or.inr (second.edgeIn edge))
    · exact Or.inr (Or.inl (first.mask ▸ unregistered))
    · exact Or.inr (Or.inr edge)
  · intro room
    cases between : t.room with
    | true =>
        rcases first.space between with before | free | unregistered | edge
        · exact Or.inl before
        · exact Or.inr (Or.inl free)
        · exact Or.inr (Or.inr (Or.inl unregistered))
        · exact Or.inr (Or.inr (Or.inr (second.edgeOut edge)))
    | false =>
        rcases second.space room with before | free | unregistered | edge
        · rw [between] at before
          cases before
        · exact Or.inr (Or.inl ((first.nospace between).symm.trans free))
        · exact Or.inr (Or.inr (Or.inl (first.mask ▸ unregistered)))
        · exact Or.inr (Or.inr (Or.inr edge))
  · intro noRoom
    have before : t.room = false := by
      apply Bool.eq_false_iff.mpr
      intro room
      have := second.room room
      rw [noRoom] at this
      cases this
    exact (second.nospace noRoom).trans (first.nospace before)

theorem Socket.data_arrived (s : Socket) : s.Arrived s.data := by
  refine ⟨rfl, fun _ => rfl, ?_, ?_, id, id, Or.inl, fun _ => rfl, rfl, rfl⟩
  · intro _
    cases registered : hasBits s.mask EPOLLIN with
    | false => exact Or.inr (Or.inl rfl)
    | true => exact Or.inr (Or.inr (by simp [data, registered]))
  · intro edge
    simp [data, edge]

theorem Socket.space_arrived (s : Socket) : s.Arrived s.space := by
  unfold space
  split
  · exact .refl s
  · rename_i noRoom
    refine ⟨rfl, id, Or.inl, id, ?_, fun _ => rfl, ?_, ?_, rfl, rfl⟩
    · intro edge
      simp [edge]
    · intro _
      cases refused : s.nospace with
      | false => exact Or.inr (Or.inl rfl)
      | true =>
          cases registered : hasBits s.mask EPOLLOUT with
          | false => exact Or.inr (Or.inr (Or.inl rfl))
          | true => exact Or.inr (Or.inr (Or.inr (by simp)))
    · intro impossible
      cases impossible

/-- What arrivals can do to the world. -/
structure World.Arrived (w v : World) : Prop where
  sock : ∀ h, (w.sock h).Arrived (v.sock h)
  full : v.full = w.full

theorem World.Arrived.refl (w : World) : w.Arrived w := ⟨fun _ => .refl _, rfl⟩

theorem World.Arrived.trans {w v u : World} (first : w.Arrived v) (second : v.Arrived u) :
    w.Arrived u :=
  ⟨fun h => (first.sock h).trans (second.sock h), second.full.trans first.full⟩

theorem World.put_arrived {w : World} {h : Sock} {s : Socket} (arrived : (w.sock h).Arrived s) :
    w.Arrived (w.put h s) := by
  refine ⟨?_, rfl⟩
  intro g
  by_cases same : g = h
  · subst same
    simpa [put] using arrived
  · simpa [put, same] using Socket.Arrived.refl _

theorem World.arriveAll_arrived (w : World) (arrivals : List Arrival) :
    w.Arrived (w.arriveAll arrivals) := by
  induction arrivals generalizing w with
  | nil => exact .refl w
  | cons a rest ih =>
      refine .trans ?_ (ih (w.arrive a))
      cases a with
      | data h => exact put_arrived (Socket.data_arrived _)
      | space h => exact put_arrived (Socket.space_arrived _)

theorem World.turn_arrived {w v : World} {t : Turn} (next : w.turn = some (t, v)) :
    w.Arrived v := by
  unfold turn at next
  split at next
  · cases next
  · cases next
    refine .trans ?_ (arriveAll_arrived _ t.arrivals)
    exact ⟨fun _ => .refl _, rfl⟩

theorem World.pass_arrived (w : World) : w.Arrived w.pass := by
  unfold pass
  split
  · exact .refl w
  · rename_i next
    exact turn_arrived next

@[simp] theorem World.put_self (w : World) (h : Sock) (s : Socket) : (w.put h s).sock h = s := by
  simp [put]

@[simp] theorem World.put_other (w : World) (i : ℕ) (x : Side) (s : Socket) :
    (w.put (i, x) s).sock (i, x.other) = w.sock (i, x.other) := by
  simp [put]

@[simp] theorem World.put_other' (w : World) (i : ℕ) (x : Side) (s : Socket) :
    (w.put (i, x.other) s).sock (i, x) = w.sock (i, x) := by
  simp [put]

theorem World.put_foreign (w : World) (i : ℕ) (x : Side) (s : Socket) {h : Sock}
    (foreign : h.1 ≠ i) : (w.put (i, x) s).sock h = w.sock h := by
  have different : h ≠ (i, x) := fun same => foreign (by rw [same])
  simp [put, different]

@[simp] theorem World.put_full (w : World) (h : Sock) (s : Socket) : (w.put h s).full = w.full := rfl

@[simp] theorem World.fill_sock (w : World) (h : Sock) (full : Bool) :
    (w.fill h full).sock = w.sock := rfl

/-- What comes from the source of a direction does not stall. Once the direction has `ran` it is
also known what the last attempt to read came to. -/
structure Filling (ran due : Prop) (sink source : Link) (from_ : Socket) (full : Bool) : Prop where
  fills : source.readable = true → from_.ready = true → (from_.edgeIn = true ∨ due) ∨
    0 < sink.out.size ∧ (sink.out.size = sink.out.capacity ∨ full = true)
  read : ran → source.readable = true → sink.out.size < sink.out.capacity →
    from_.deniedIn = true

/-- What is in the pipe of a direction does not stall. -/
structure Draining (ran due : Prop) (sink source : Link) (into : Socket) : Prop where
  drains : sink.writable = true → 0 < sink.out.size →
    into.room = false ∧ into.nospace = true ∨
      into.room = true ∧ (into.edgeOut = true ∨ due)
  ends : source.readable = false → sink.writable = true → 0 < sink.out.size
  wrote : ran → sink.writable = true → 0 < sink.out.size → into.deniedOut = true

/-- The links that these are about have not changed in what matters. -/
structure Link.Same (l m : Link) : Prop where
  readable : m.readable = l.readable
  writable : m.writable = l.writable
  size : m.out.size = l.out.size
  capacity : m.out.capacity = l.out.capacity
  writeEnd : l.out.writeEnd = false → m.out.writeEnd = false

theorem Link.Same.refl (l : Link) : l.Same l := ⟨rfl, rfl, rfl, rfl, id⟩

theorem Link.Same.trans {l m n : Link} (first : l.Same m) (second : m.Same n) : l.Same n :=
  ⟨second.readable.trans first.readable, second.writable.trans first.writable,
    second.size.trans first.size, second.capacity.trans first.capacity,
    fun closed => second.writeEnd (first.writeEnd closed)⟩

variable {ran due : Prop} {sink source sink' source' : Link}
  {into into' from_ from' : Socket} {full : Bool}

theorem Filling.closed (sourceClosed : source.readable = false) :
    Filling ran due sink source from_ full := by
  refine ⟨?_, ?_⟩ <;> simp [sourceClosed]

theorem Draining.closed (sinkClosed : sink.writable = false) :
    Draining ran due sink source into := by
  refine ⟨?_, ?_, ?_⟩ <;> simp [sinkClosed]

theorem Filling.mono {ran' due' : Prop} (filling : Filling ran due sink source from_ full)
    (hasRun : ran' → ran) (reported : due → due') :
    Filling ran' due' sink source from_ full := by
  refine ⟨?_, fun run => filling.read (hasRun run)⟩
  intro readable ready
  rcases filling.fills readable ready with (edge | due) | full
  · exact Or.inl (Or.inl edge)
  · exact Or.inl (Or.inr (reported due))
  · exact Or.inr full

theorem Draining.mono {ran' due' : Prop} (draining : Draining ran due sink source into)
    (hasRun : ran' → ran) (reported : due → due') : Draining ran' due' sink source into := by
  refine ⟨?_, draining.ends, fun run => draining.wrote (hasRun run)⟩
  intro writable filled
  rcases draining.drains writable filled with refused | ⟨room, edge | due⟩
  · exact Or.inl refused
  · exact Or.inr ⟨room, Or.inl edge⟩
  · exact Or.inr ⟨room, Or.inr (reported due)⟩

/-- The source sees to it that the bytes that arrive are noticed. -/
theorem Filling.arrived (filling : Filling ran due sink source from_ full)
    (arrived : from_.Arrived from')
    (mask : source.readable = true → hasBits from_.mask EPOLLIN = true) :
    Filling ran due sink source from' full := by
  refine ⟨?_, ?_⟩
  · intro readable ready
    rcases arrived.news ready with before | unregistered | edge
    · rcases filling.fills readable before with (edge | due) | full
      · exact Or.inl (Or.inl (arrived.edgeIn edge))
      · exact Or.inl (Or.inr due)
      · exact Or.inr full
    · rw [mask readable] at unregistered
      cases unregistered
    · exact Or.inl (Or.inl edge)
  · intro hasRun readable space
    rw [arrived.deniedIn]
    exact filling.read hasRun readable space

/-- The sink sees to it that the room that appears is noticed. -/
theorem Draining.arrived (draining : Draining ran due sink source into)
    (arrived : into.Arrived into')
    (mask : sink.writable = true → hasBits into.mask EPOLLOUT = true) :
    Draining ran due sink source into' := by
  refine ⟨?_, draining.ends, ?_⟩
  · intro writable filled
    rcases draining.drains writable filled with ⟨noRoom, nospace⟩ | ⟨room, edge | due⟩
    · cases room : into'.room with
      | false => exact Or.inl ⟨rfl, (arrived.nospace room).trans nospace⟩
      | true =>
          rcases arrived.space room with before | free | unregistered | edge
          · rw [noRoom] at before
            cases before
          · rw [nospace] at free
            cases free
          · rw [mask writable] at unregistered
            cases unregistered
          · exact Or.inr ⟨rfl, Or.inl edge⟩
    · exact Or.inr ⟨arrived.room room, Or.inl (arrived.edgeOut edge)⟩
    · exact Or.inr ⟨arrived.room room, Or.inr due⟩
  · intro hasRun writable filled
    rw [arrived.deniedOut]
    exact draining.wrote hasRun writable filled

theorem Filling.congr (filling : Filling ran due sink source from_ full)
    (size : sink'.out.size = sink.out.size) (capacity : sink'.out.capacity = sink.out.capacity)
    (readable : source'.readable = source.readable) :
    Filling ran due sink' source' from_ full := by
  refine ⟨?_, ?_⟩
  · rw [readable, size, capacity]
    exact filling.fills
  · rw [readable, size, capacity]
    exact filling.read

theorem Draining.congr (draining : Draining ran due sink source into)
    (size : sink'.out.size = sink.out.size) (writable : sink'.writable = sink.writable)
    (readable : source'.readable = source.readable) : Draining ran due sink' source' into := by
  refine ⟨?_, ?_, ?_⟩
  · rw [writable, size]
    exact draining.drains
  · rw [readable, writable, size]
    exact draining.ends
  · rw [writable, size]
    exact draining.wrote

/-- Registering a socket reports what it is ready for. -/
theorem Filling.register (filling : Filling ran due sink source from_ full) {events : Events}
    (mask : hasBits events EPOLLIN = true) :
    Filling ran due sink source (from_.register events) full := by
  refine ⟨?_, filling.read⟩
  intro _ ready
  have edge : (from_.register events).edgeIn = true := by
    change from_.ready = true at ready
    simp [Socket.register, ready, mask]
  exact Or.inl (Or.inl edge)

theorem Draining.register (draining : Draining ran due sink source into) {events : Events}
    (mask : hasBits events EPOLLOUT = true) :
    Draining ran due sink source (into.register events) := by
  refine ⟨?_, draining.ends, draining.wrote⟩
  intro writable filled
  rcases draining.drains writable filled with refused | ⟨room, _⟩
  · exact Or.inl refused
  · refine Or.inr ⟨room, Or.inl ?_⟩
    simp [Socket.register, room, mask]

/-- A direction that does not stall, while the events of `todo` are still to be dispatched. -/
structure Ctx.Flows (ran : Prop) (todo : List Event) (c : Ctx World) (x : Side) : Prop where
  filling : Filling ran (dueIn todo (c.id, x.other)) (c.pair.link x) (c.pair.link x.other)
    (c.world.sock (c.id, x.other)) (c.world.full (c.id, x))
  draining : Draining ran (dueOut todo (c.id, x)) (c.pair.link x) (c.pair.link x.other)
    (c.world.sock (c.id, x))

/-- What the sockets of a pair are registered for, and that a pipe has no more writers once the
end of the source's stream was read. What belongs to other pairs is in the world `w`, apart from
what has arrived. -/
structure Steady (i : ℕ) (w : World) (c : Ctx World) : Prop where
  id : c.id = i
  others : ∀ h, h.1 ≠ i → (w.sock h).Arrived (c.world.sock h) ∧ c.world.full h = w.full h
  masks : ∀ x, (c.pair.link x).isOpen = true →
    (c.world.sock (i, x)).mask = mask (c.pair.link x).readable (c.pair.link x).writable
  ends : ∀ x, (c.pair.link x.other).readable = false → (c.pair.link x).writable = true →
    (c.pair.link x).out.writeEnd = false
  capacity : ∀ x, 0 < (c.pair.link x).out.capacity

theorem hasBits_mask_in (writable : Bool) : hasBits (mask true writable) EPOLLIN = true := by
  cases writable <;> decide

theorem hasBits_mask_out (readable : Bool) : hasBits (mask readable true) EPOLLOUT = true := by
  cases readable <;> decide

variable {i : ℕ} {w : World} {c d : Ctx World} {x : Side} {todo : List Event}

theorem Steady.maskIn (steady : Steady i w c) (x : Side)
    (readable : (c.pair.link x).readable = true) :
    hasBits (c.world.sock (c.id, x)).mask EPOLLIN = true := by
  rw [steady.id, steady.masks x (by simp [Link.isOpen, readable]), readable]
  exact hasBits_mask_in _

theorem Steady.maskOut (steady : Steady i w c) (x : Side)
    (writable : (c.pair.link x).writable = true) :
    hasBits (c.world.sock (c.id, x)).mask EPOLLOUT = true := by
  rw [steady.id, steady.masks x (by simp [Link.isOpen, writable]), writable]
  exact hasBits_mask_out _

/-- A step of the program that leaves the sockets of the pair registered as they are. -/
theorem Steady.of_masks (steady : Steady i w c) (id : d.id = c.id)
    (flags : ∀ x, (d.pair.link x).readable = (c.pair.link x).readable ∧
      (d.pair.link x).writable = (c.pair.link x).writable)
    (writeEnd : ∀ x, (c.pair.link x).out.writeEnd = false → (d.pair.link x).out.writeEnd = false)
    (capacity : ∀ x, (d.pair.link x).out.capacity = (c.pair.link x).out.capacity)
    (others : ∀ h, h.1 ≠ c.id →
      (c.world.sock h).Arrived (d.world.sock h) ∧ d.world.full h = c.world.full h)
    (masks : ∀ x, (d.world.sock (c.id, x)).mask = (c.world.sock (c.id, x)).mask) :
    Steady i w d := by
  have same := steady.id
  subst same
  refine ⟨id, ?_, ?_, ?_, ?_⟩
  · intro h foreign
    obtain ⟨arrived, full⟩ := others h foreign
    obtain ⟨before, fullBefore⟩ := steady.others h foreign
    exact ⟨before.trans arrived, full.trans fullBefore⟩
  · intro x isOpen
    obtain ⟨readable, writable⟩ := flags x
    rw [Link.isOpen, readable, writable] at isOpen
    rw [masks, readable, writable]
    exact steady.masks x isOpen
  · intro x closed writable
    rw [(flags x.other).1] at closed
    rw [(flags x).2] at writable
    exact writeEnd x (steady.ends x closed writable)
  · intro x
    rw [capacity]
    exact steady.capacity x

/-- A step of the program that does not matter to what flows. -/
structure Ctx.Quiet (c d : Ctx World) : Prop where
  id : d.id = c.id
  links : ∀ x, (c.pair.link x).Same (d.pair.link x)
  world : c.world.Arrived d.world

theorem Ctx.Quiet.refl (c : Ctx World) : c.Quiet c := ⟨rfl, fun _ => .refl _, .refl _⟩

theorem Ctx.Quiet.trans {e : Ctx World} (first : c.Quiet d) (second : d.Quiet e) : c.Quiet e :=
  ⟨second.id.trans first.id, fun x => (first.links x).trans (second.links x),
    first.world.trans second.world⟩

theorem Steady.quiet (steady : Steady i w c) (quiet : c.Quiet d) : Steady i w d := by
  refine steady.of_masks quiet.id ?_ ?_ ?_ ?_ ?_
  · exact fun x => ⟨(quiet.links x).readable, (quiet.links x).writable⟩
  · exact fun x => (quiet.links x).writeEnd
  · exact fun x => (quiet.links x).capacity
  · exact fun h _ => ⟨quiet.world.sock h, by rw [quiet.world.full]⟩
  · exact fun x => (quiet.world.sock _).mask

theorem Ctx.Flows.quiet (flows : c.Flows ran todo x) (steady : Steady i w c) (quiet : c.Quiet d) :
    d.Flows ran todo x := by
  refine ⟨?_, ?_⟩
  · rw [quiet.id, quiet.world.full]
    exact (flows.filling.arrived (quiet.world.sock _) (steady.maskIn _)).congr
      (quiet.links _).size (quiet.links _).capacity (quiet.links _).readable
  · rw [quiet.id]
    exact (flows.draining.arrived (quiet.world.sock _) (steady.maskOut _)).congr
      (quiet.links _).size (quiet.links _).writable (quiet.links _).readable

/-- What an attempt to read from a socket leaves alone. -/
structure Socket.OutSame (s t : Socket) : Prop where
  mask : t.mask = s.mask
  room : t.room = s.room
  nospace : t.nospace = s.nospace
  edgeOut : t.edgeOut = s.edgeOut
  deniedOut : t.deniedOut = s.deniedOut

/-- What an attempt to write to a socket leaves alone. -/
structure Socket.InSame (s t : Socket) : Prop where
  mask : t.mask = s.mask
  ready : t.ready = s.ready
  edgeIn : t.edgeIn = s.edgeIn
  deniedIn : t.deniedIn = s.deniedIn

/-- What an attempt to move something in the direction to `x` can do. -/
structure Ctx.Moves (c : Ctx World) (x : Side) (d : Ctx World) : Prop where
  id : d.id = c.id
  flags : ∀ y, (d.pair.link y).readable = (c.pair.link y).readable ∧
    (d.pair.link y).writable = (c.pair.link y).writable
  writeEnd : ∀ y, (c.pair.link y).out.writeEnd = false → (d.pair.link y).out.writeEnd = false
  capacity : ∀ y, (d.pair.link y).out.capacity = (c.pair.link y).out.capacity
  size : (d.pair.link x.other).out.size = (c.pair.link x.other).out.size
  sink : (c.world.sock (c.id, x)).InSame (d.world.sock (c.id, x))
  source : (c.world.sock (c.id, x.other)).OutSame (d.world.sock (c.id, x.other))
  full : d.world.full (c.id, x.other) = c.world.full (c.id, x.other)
  others : ∀ h, h.1 ≠ c.id → d.world.sock h = c.world.sock h ∧ d.world.full h = c.world.full h

theorem Ctx.Moves.refl (c : Ctx World) (x : Side) : c.Moves x c :=
  ⟨rfl, fun _ => ⟨rfl, rfl⟩, fun _ closed => closed, fun _ => rfl, rfl, ⟨rfl, rfl, rfl, rfl⟩,
    ⟨rfl, rfl, rfl, rfl, rfl⟩, rfl, fun _ _ => ⟨rfl, rfl⟩⟩

theorem Steady.moves (steady : Steady i w c) (moves : c.Moves x d) : Steady i w d := by
  refine steady.of_masks moves.id moves.flags moves.writeEnd moves.capacity ?_ ?_
  · intro h foreign
    obtain ⟨sock, full⟩ := moves.others h foreign
    rw [sock]
    exact ⟨.refl _, full⟩
  · exact (Side.forall_iff x).mpr ⟨moves.sink.mask, moves.source.mask⟩

/-- What moves in one direction does not stall the other one. -/
theorem Ctx.Flows.moves (flows : c.Flows ran todo x.other) (moves : c.Moves x d) :
    d.Flows ran todo x.other := by
  obtain ⟨filling, draining⟩ := flows
  rw [Side.other_other] at filling draining
  refine ⟨?_, ?_⟩
  · have sink := moves.sink
    rw [Side.other_other, moves.id, moves.full]
    refine Filling.congr ?_ moves.size (moves.capacity _) (moves.flags x).1
    refine ⟨?_, ?_⟩
    · rw [sink.ready, sink.edgeIn]
      exact filling.fills
    · rw [sink.deniedIn]
      exact filling.read
  · have source := moves.source
    rw [Side.other_other, moves.id]
    refine Draining.congr ?_ moves.size (moves.flags _).2 (moves.flags _).1
    refine ⟨?_, draining.ends, ?_⟩
    · rw [source.room, source.nospace, source.edgeOut]
      exact draining.drains
    · rw [source.deniedOut]
      exact draining.wrote

end Hcproxy.Forwarder
