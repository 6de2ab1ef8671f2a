import Hcproxy.ForwarderDispatch

set_option autoImplicit false

namespace Hcproxy.Forwarder

open Exec (Holds)

variable {W : Type}

/-- A handler that has been added to the loop. -/
def Link.added (l : Link) (events : Events) : Link :=
  { l with event_loop := true, ref_count := l.ref_count + 1, events := some events }

theorem add_spec (k : Kernel W) {f : Frame} {c : Ctx W} {x : Side} (events : Events)
    (inv : LoopInv f c) (alive : (c.pair.link x).deleted = false)
    (unregistered : (c.pair.link x).event_loop = false) :
    Holds (add k x events) (fun _ _ => False) (fun _ d => LoopInv f d ∧
      d.pair = c.pair.set x ((c.pair.link x).added events)) c := by
  have total := inv.total_of x
  have listed := inv.listed x
  rw [unregistered] at total listed
  have added : ∀ time, c.loop.add (c.id, x) (c.pair.link x).toEventHandler events time = some
      ({ c.loop with
        expire := c.loop.expire ++ [((c.id, x), Clock.add time c.loop.timeout)]
        total_events := c.loop.total_events + 1 },
        { event_loop := true
          ref_count := (c.pair.link x).ref_count + 1
          events := some events }) := by
    intro time
    rw [EventLoop.add, unregistered]
    rfl
  simp only [add, now, Exec.holds_bind, holds_link alive, holds_ctx, holds_setCtx,
    Exec.holds_pure, added, holds_call]
  refine ⟨⟨inv.id, inv.timeout, ?_, ?_, ?_, ?_⟩, rfl⟩
  · rw [registered_sum _ x]
    simp only [Pair.link_set, Pair.link_other_set, Bool.toNat_true]
    simp only [Bool.toNat_false] at total
    omega
  · refine (Side.forall_iff x).mpr ⟨?_, ?_⟩
    · simp [inv.id, listed]
    · have different : (f.id, x) ≠ (f.id, x.other) := by simp
      simp only [inv.id, List.map_append, List.map_cons, List.map_nil, List.count_append,
        List.count_singleton, Pair.link_other_set, inv.listed x.other]
      simp
  · rw [List.filter_append, inv.id, inv.foreign]
    simp
  · intro e inside
    rcases List.mem_append.mp inside with inside | inside
    · have := inv.deadlines e inside
      dsimp only
      omega
    · cases List.mem_singleton.mp inside
      rw [← inv.timeout]
      exact Clock.add_le _ _

/-- A handler that `New` has given up. -/
structure Link.Discarded (l : Link) : Prop where
  deleted : l.deleted = true
  deletes : l.deletes = 1
  closes : l.closes = 1
  readable : l.readable = false
  writable : l.writable = false
  registered : l.event_loop = false
  events : l.events = none
  refs : l.ref_count = 0
  temps : l.temps = 0
  readEnd : l.out.readEnd = false
  writeEnd : l.out.writeEnd = false
  readCloses : l.out.readCloses = l.out.opened.toNat
  writeCloses : l.out.writeCloses = l.out.opened.toNat
  unused : l.delivered = [] ∧ l.received = [] ∧ l.finished = false

/-- A handler that has just been constructed, with or without a pipe. -/
structure Link.Fresh (l : Link) : Prop where
  base : l.toEventHandler = {}
  alive : l.deleted = false
  deletes : l.deletes = 0
  closes : l.closes = 0
  temps : l.temps = 0
  readEnd : l.out.readEnd = l.out.opened
  writeEnd : l.out.writeEnd = l.out.opened
  readCloses : l.out.readCloses = 0
  writeCloses : l.out.writeCloses = 0
  unused : l.delivered = [] ∧ l.received = [] ∧ l.finished = false

def Link.discard (l : Link) : Link :=
  { l with
    readable := false
    writable := false
    closes := l.closes + 1
    out := l.out.destroy
    deleted := true
    deletes := l.deletes + 1 }

theorem Link.Fresh.discard {l : Link} (fresh : l.Fresh) : l.discard.Discarded := by
  refine ⟨rfl, ?_, ?_, rfl, rfl, ?_, ?_, ?_, fresh.temps, rfl, rfl, ?_, ?_, fresh.unused⟩
  · simp [Link.discard, fresh.deletes]
  · simp [Link.discard, fresh.closes]
  · simp [Link.discard, fresh.base]
  · simp [Link.discard, fresh.base]
  · simp [Link.discard, fresh.base]
  · simp [Link.discard, Buffer.destroy, fresh.readCloses, fresh.readEnd]
  · simp [Link.discard, Buffer.destroy, fresh.writeCloses, fresh.writeEnd]

theorem discard_spec (k : Kernel W) {onStop : Stop → Ctx W → Prop}
    {post : PUnit → Ctx W → Prop} {c : Ctx W} {x : Side} (fresh : (c.pair.link x).Fresh)
    (holds : ∀ world, post ⟨⟩ { c with
      world, pair := c.pair.set x (c.pair.link x).discard }) :
    Holds (discard k x) onStop post c := by
  have base := fresh.base
  have there : (({ c with
      world := k.call c.world (c.id, x) .close
      pair := c.pair.set x { c.pair.link x with
        readable := false
        writable := false
        closes := (c.pair.link x).closes + 1 } } : Ctx W).pair.link x).deleted = false := by
    simpa using fresh.alive
  have alive : (({ c with world := k.call c.world (c.id, x) .close } : Ctx W).pair.link x).deleted
      = false := fresh.alive
  simp only [discard, delete, Exec.holds_bind, holds_call, holds_link alive, holds_put,
    holds_link there]
  rw [holds_check (by simp), holds_check (by simp [base]), holds_check (by simp [base]),
    Pair.set_set, Pair.link_set]
  exact holds _

/-- What is left of a pair that could not be made. -/
structure Pair.Discarded (p : Pair) : Prop where
  linked : p.linked = false
  links : ∀ x, (p.link x).Discarded

theorem giveUp_spec (k : Kernel W) {f : Frame} {c : Ctx W} (inv : LoopInv f c)
    (unlinked : c.pair.linked = false) (fresh : ∀ x, (c.pair.link x).Fresh) :
    Holds (do discard k .client; discard k .server) (fun _ _ => False)
      (fun _ d => LoopInv f d ∧ d.pair.Discarded) c := by
  rw [Exec.holds_bind]
  refine discard_spec k (fresh .client) fun world => ?_
  refine discard_spec k (fresh .server) fun world => ?_
  have gone : ∀ x, (((c.pair.set .client (c.pair.link .client).discard).set .server
      (c.pair.link .server).discard).link x) = (c.pair.link x).discard := by
    intro x
    cases x <;> rfl
  refine ⟨inv.of_same rfl rfl (Nat.le_refl _) ?_, unlinked, ?_⟩
  · intro x
    exact (congrArg (·.event_loop) (gone x)).trans rfl
  · intro x
    exact (gone x) ▸ (fresh x).discard

/-- A handler whose buffer has been initialised. -/
def Link.piped (l : Link) (capacity : ℕ) : Link :=
  { l with out :=
    { l.out with capacity, readEnd := true, writeEnd := true, opened := true } }

theorem init_spec (k : Kernel W) {onStop : Stop → Ctx W → Prop} {post : Bool → Ctx W → Prop}
    {c : Ctx W} {x : Side} (size_bytes : BufferSize) (alive : (c.pair.link x).deleted = false)
    (fails : ∀ world, post false { c with world })
    (succeeds : ∀ world capacity, page ≤ capacity → post true { c with
      world, pair := c.pair.set x ((c.pair.link x).piped capacity) }) :
    Holds (init k x size_bytes) onStop post c := by
  simp only [init, Exec.holds_bind, holds_link alive, holds_ctx]
  cases result : k.pipe c.world size_bytes.1 with
  | mk answer world =>
      cases answer with
      | none => exact fails world
      | some capacity => exact succeeds world capacity.1 capacity.2.2

theorem holds_incRef {onStop : Stop → Ctx W → Prop} {post : PUnit → Ctx W → Prop} {c : Ctx W}
    {x : Side} (alive : (c.pair.link x).deleted = false) :
    Holds (incRef x) onStop post c ↔ post ⟨⟩ { c with
      pair := c.pair.set x { c.pair.link x with ref_count := (c.pair.link x).ref_count + 1 } } := by
  simp only [incRef, Exec.holds_bind, holds_link alive, holds_put]

theorem holds_write {onStop : Stop → Ctx W → Prop} {post : PUnit → Ctx W → Prop} {c : Ctx W}
    {x : Side} {data : Bytes} (alive : (c.pair.link x).deleted = false)
    (bounded : (c.pair.link x).out.size ≤ (c.pair.link x).out.capacity)
    (fits : data.length ≤ (c.pair.link x).out.capacity - (c.pair.link x).out.size)
    (writeEnd : (c.pair.link x).out.writeEnd = true) :
    Holds (write x data) onStop post c ↔ post ⟨⟩ { c with
      pair := c.pair.set x { c.pair.link x with out :=
        { (c.pair.link x).out with
          content := (c.pair.link x).out.content ++ data
          size := (c.pair.link x).out.size + data.length } } } := by
  have room : (c.pair.link x).out.size + data.length ≤ (c.pair.link x).out.capacity := by omega
  simp only [write, Exec.holds_bind, holds_link alive, holds_check bounded, holds_check fits,
    holds_check writeEnd, holds_put, holds_check room]

/-- A handler that `New` has linked to the other one and added to the loop, with `greeting` in its
buffer. -/
def Link.start (capacity : ℕ) (greeting : Bytes) : Link :=
  { event_loop := true
    ref_count := 2
    events := some (EPOLLIN ||| EPOLLOUT ||| EPOLLET)
    out :=
      { capacity
        size := greeting.length
        readEnd := true
        writeEnd := true
        content := greeting
        opened := true } }

theorem Owned.start (a b : ℕ) (g h : Bytes) : Owned (.start a g) (.start b h) := by
  refine ⟨rfl, ?_, rfl, rfl, rfl, rfl, rfl, rfl, rfl, ?_⟩
  · simp [Link.start]
  · simp [Link.start]

theorem Sent.start {a b : ℕ} {g h : Bytes} (fits : g.length ≤ a) :
    Sent g (.start a g) (.start b h) := by
  refine ⟨fits, List.nil_prefix, ?_⟩
  simp [Link.start]

theorem Live.start (a b : ℕ) (g h : Bytes) : Live g (.start a g) (.start b h) := by
  refine ⟨fun _ => rfl, fun _ => rfl, ?_, rfl, ?_, ?_, ?_⟩ <;> simp [Link.start]

theorem Good.start {f : Frame} {c : Ctx W} {a b : ℕ} (inv : LoopInv f c)
    (fits : kResponse.length ≤ a) (idle : ∀ x, f.temps x = 0)
    (pair : c.pair = { client := .start a kResponse, server := .start b [], linked := true }) :
    Good f c := by
  obtain ⟨id, p, loop, clock, world⟩ := c
  subst pair
  refine ⟨⟨inv, rfl, ?_, ?_⟩, ?_, ?_, ?_⟩
  · intro x
    cases x
    · exact (idle .client).symm
    · exact (idle .server).symm
  · intro x
    cases x
    · exact Owned.start a b kResponse []
    · exact Owned.start b a [] kResponse
  · intro x
    cases x
    · exact Sent.start fits
    · exact Sent.start (Nat.zero_le _)
  · intro _ x
    cases x
    · exact Live.start a b kResponse []
    · exact Live.start b a [] kResponse
  · intro terminated
    cases terminated

/-- `New` makes a pair as it should be, or leaves nothing of it. -/
theorem new_spec (k : Kernel W) (opt : Options) {f : Frame} {c : Ctx W} (inv : LoopInv f c)
    (made : c.pair = {}) (idle : ∀ x, f.temps x = 0) :
    Holds (new k opt) (fun _ _ => False)
      (fun _ d => Good f d ∨ LoopInv f d ∧ d.pair.Discarded) c := by
  obtain ⟨id, pair, loop, clock, world⟩ := c
  subst made
  have fresh : Link.Fresh {} := ⟨rfl, rfl, rfl, rfl, rfl, rfl, rfl, rfl, rfl, rfl, rfl, rfl⟩
  have piped : ∀ capacity, (Link.piped {} capacity).Fresh :=
    fun _ => ⟨rfl, rfl, rfl, rfl, rfl, rfl, rfl, rfl, rfl, rfl, rfl, rfl⟩
  have giveUp : ∀ {d : Ctx W}, LoopInv f d → d.pair.linked = false →
      (∀ x, (d.pair.link x).Fresh) →
      Holds (do discard k .client; discard k .server) (fun _ _ => False)
        (fun _ d => Good f d ∨ LoopInv f d ∧ d.pair.Discarded) d :=
    fun invD unlinked freshD => (giveUp_spec k invD unlinked freshD).mono
      (fun _ _ never => never) fun _ _ gone => Or.inr gone
  simp only [new, Exec.holds_bind]
  refine init_spec k _ rfl (fun world => ?_) fun world a fits => ?_
  · simp only [Bool.false_eq_true, ↓reduceIte, Exec.holds_pure]
    refine giveUp (inv.of_same rfl rfl (Nat.le_refl _) fun _ => rfl) rfl fun x => ?_
    cases x <;> exact fresh
  simp only [↓reduceIte]
  refine init_spec k _ rfl (fun world => ?_) fun world b _ => ?_
  · simp only [Bool.false_eq_true, ↓reduceIte]
    refine giveUp (inv.of_same rfl rfl (Nat.le_refl _) fun x => by cases x <;> rfl) rfl
      fun x => ?_
    cases x
    · exact piped a
    · exact fresh
  simp only [↓reduceIte, Exec.holds_bind, holds_ctx, holds_setCtx]
  rw [holds_incRef rfl, holds_incRef rfl]
  refine (add_spec k (f := f) (x := .client) _ ?_ rfl rfl).mono (fun _ _ never => never) ?_
  · exact inv.of_same rfl rfl (Nat.le_refl _) fun x => by cases x <;> rfl
  rintro _ d ⟨invD, pairD⟩
  refine (add_spec k (f := f) (x := .server) _ invD (pairD ▸ rfl) (pairD ▸ rfl)).mono
    (fun _ _ never => never) ?_
  rintro _ e ⟨invE, pairE⟩
  rw [pairD] at pairE
  have space : kResponse.length ≤ a := Nat.le_trans (by decide) fits
  have started : e.pair = { client := .start a [], server := .start b [], linked := true } :=
    pairE.trans rfl
  have client : e.pair.link .client = .start a [] := by
    rw [started]
    rfl
  rw [holds_write (by rw [client]; rfl) (by rw [client]; exact Nat.zero_le a)
    (by rw [client]; exact space) (by rw [client]; rfl), client]
  refine Or.inl (Good.start (b := b) (invE.of_same rfl rfl (Nat.le_refl _) ?_) space idle ?_)
  · rw [started]
    exact fun x => by cases x <;> rfl
  · rw [started]
    simp only [Pair.set, Link.start, List.nil_append, List.length_nil, Nat.zero_add]

end Hcproxy.Forwarder
