import Hcproxy.ForwarderRuns

set_option autoImplicit false

namespace Hcproxy.Forwarder

variable {W : Type} (k : Kernel W) {opt : Options}

theorem safe_of_reachable {s : State W} (reach : Reachable k opt s) : ∃ temps, Safe temps s := by
  refine Runs.Reachable.invariant (I := fun s => ∃ temps, Safe temps s) ?_ ?_ reach
  · exact fun s initial => ⟨_, safe_init initial⟩
  · rintro s t ⟨temps, safe⟩ ⟨a, _, moved⟩
    exact step_safe k safe moved

theorem Sound.intact {temps : Sock → ℕ} {s : State W} (sound : Sound temps s) {i : ℕ} {p : Pair}
    (found : s.pairs[i]? = some p) (linked : p.linked = true) :
    p.Intact fun x => temps (i, x) := by
  rcases sound.pairs i p found with intact | ⟨discarded, _⟩
  · exact intact
  · rw [discarded.linked] at linked
    cases linked

/-- What a tunnel promises to those at its ends. -/
structure Pair.Transparent (p : Pair) : Prop where
  running : p.terminated = false → ∀ x,
    (p.link x).delivered ++ (p.link x).out.content = greeting x ++ (p.link x.other).received ∧
      (p.link x).out.size = (p.link x).out.content.length
  sound : ∀ x, (p.link x).delivered <+: greeting x ++ (p.link x.other).received
  finished : ∀ x, (p.link x).finished = true → (p.link x.other).eof = true ∧
    (p.link x).delivered = greeting x ++ (p.link x.other).received
  closed : p.terminated = false → ∀ x, (p.link x).writable = false →
    (p.link x.other).eof = true ∧ (p.link x).delivered = greeting x ++ (p.link x.other).received

theorem Pair.Intact.passesOn {p : Pair} {temps : Side → ℕ} (intact : p.Intact temps) :
    p.Transparent where
  running going x := ⟨(intact.live going x).bytes, (intact.live going x).counted⟩
  sound x := (intact.sent x).sound
  finished x finished := ((intact.sent x).finished finished).2.2
  closed going x closed := by
    have live := intact.live going x
    have bytes := live.bytes
    rw [live.drained closed, List.append_nil] at bytes
    exact ⟨live.ended (live.halfClose closed), bytes⟩

/-- No byte is lost, duplicated, reordered or sent the wrong way, and the end of a stream does not
overtake its bytes. -/
theorem transparent {s : State W} (reach : Reachable k opt s) {i : ℕ} {p : Pair}
    (found : s.pairs[i]? = some p) (linked : p.linked = true) : p.Transparent := by
  obtain ⟨temps, safe⟩ := safe_of_reachable k reach
  exact (safe.intact found linked).passesOn

/-- Peers that take all they are sent, and a client that has sent some bytes. -/
def eager : Kernel Bytes where
  splice_in unread sock _ room :=
    if more : unread.take room ≠ [] ∧ sock.2 = .client then
      some (.data (unread.take room) more.1 (List.length_take_le _ _), unread.drop room)
    else some (.again, unread)
  write_blocks unread _ := some (false, unread)
  splice_out unread _ size :=
    some (if full : 0 < size then .sent size full (Nat.le_refl _) else .again false, unread)
  pipe unread size := (some ⟨max size page, Nat.le_max_left _ _, Nat.le_max_right _ _⟩, unread)
  elapse unread := (1, unread)
  call unread _ _ := unread
  wait unread _ := unread

def onePage : Options where
  client_to_server_buffer_size_bytes := ⟨page, by decide⟩
  server_to_client_buffer_size_bytes := ⟨page, by decide⟩

def sixty : Timeout := ⟨60, by decide⟩

/-- A loop that makes a pair and then gets a batch with an event for each link. -/
def session (client server : Events) : Option (State Bytes) :=
  Runs.replay (step eager onePage)
    { loop := { timeout := sixty }, clock := 0, world := [65, 66] }
    [.wait [.popFunc], .dispatch 0 true, .dispatch 0 true, .expire,
      .wait [.io 0 .client client, .io 0 .server server], .dispatch 5 true, .dispatch 5 true]

def served : State Bytes := (session EPOLLIN EPOLLIN).get (by decide +kernel)

theorem served_reachable : Reachable eager onePage served :=
  Runs.replay_reachable _ (.start ⟨_, _, _, rfl⟩) (Option.some_get _).symm

def servedPair : Pair := served.pairs[0]?.get (by decide +kernel)

theorem transparent_served :
    (servedPair.link .server).delivered = [65, 66] ∧ servedPair.Transparent :=
  ⟨by decide +kernel,
    transparent eager served_reachable (i := 0) (Option.some_get _).symm (by decide +kernel)⟩

/-- What is true of the references to the links of a pair, and of what the links own. -/
structure Pair.Accounted (p : Pair) : Prop where
  refs : ∀ x, (p.link x).ref_count =
    (p.link x).event_loop.toNat + (p.link x.other).isOpen.toNat + (p.link x).temps
  gone : ∀ x, (p.link x).deleted = true ↔ (p.link x).ref_count = 0
  once : ∀ x, (p.link x).removes ≤ 1 ∧ (p.link x).closes ≤ 1 ∧ (p.link x).deletes ≤ 1
  released : (∀ x, (p.link x).isOpen = false) → (∀ x, (p.link x).temps = 0) → ∀ x,
    (p.link x).deletes = 1 ∧ (p.link x).removes = 1 ∧ (p.link x).closes = 1 ∧
      (p.link x).out.readCloses = 1 ∧ (p.link x).out.writeCloses = 1 ∧ (p.link x).ref_count = 0

theorem Pair.Intact.accounted {p : Pair} {temps : Side → ℕ} (intact : p.Intact temps) :
    p.Accounted := by
  have once := fun x => And.intro (intact.owned x).removes (intact.owned x).closes
  refine ⟨fun x => (intact.owned x).refs, fun x => (intact.owned x).deleted, ?_, ?_⟩
  · intro x
    obtain ⟨removes, closes⟩ := once x
    refine ⟨by omega, by omega, ?_⟩
    rw [(intact.owned x).deletes]
    exact Bool.toNat_le _
  · intro closed idle x
    obtain ⟨removes, closes⟩ := once x
    have owned := intact.owned x
    have refs := owned.refs
    rw [owned.registered, closed, closed, idle] at refs
    rw [closed] at removes closes
    have deleted := owned.deleted.mpr refs
    obtain ⟨readEnd, writeEnd⟩ := owned.ends deleted
    have readCloses := owned.readEnd
    have writeCloses := owned.writeEnd
    rw [readEnd] at readCloses
    rw [writeEnd] at writeCloses
    refine ⟨?_, removes, closes, readCloses, writeCloses, refs⟩
    rw [owned.deletes, deleted]
    rfl

/-- Every run keeps count of the references to the links of a pair, never touches a link that has
been deleted, and gives up all that the pair owns, once, when both links are closed. -/
theorem lifetime {s : State W} (reach : Reachable k opt s) :
    (∀ why, s.phase = .stopped why → s.Interrupted why) ∧
      ∀ (i : ℕ) (p : Pair), s.pairs[i]? = some p → p.linked = true → p.Accounted ∧
        ((∀ why, s.phase ≠ .stopped why) → ∀ x, (p.link x).temps = s.phase.refs (i, x)) := by
  obtain ⟨temps, safe⟩ := safe_of_reachable k reach
  refine ⟨safe.stops, ?_⟩
  intro i p found linked
  have intact := safe.intact found linked
  refine ⟨intact.accounted, ?_⟩
  intro between x
  rw [intact.temps, safe.refs between]

def broken : State Bytes := (session EPOLLERR EPOLLIN).get (by decide +kernel)

theorem broken_reachable : Reachable eager onePage broken :=
  Runs.replay_reachable _ (.start ⟨_, _, _, rfl⟩) (Option.some_get _).symm

def brokenPair : Pair := broken.pairs[0]?.get (by decide +kernel)

theorem lifetime_broken :
    brokenPair.client.deletes = 1 ∧ brokenPair.server.deletes = 1 ∧ brokenPair.Accounted :=
  ⟨by decide +kernel, by decide +kernel,
    ((lifetime eager broken_reachable).2 0 brokenPair (Option.some_get _).symm
      (by decide +kernel)).1⟩

/-- What an fd is registered for, from the flags of its link. -/
def Link.interest (l : Link) : Events :=
  EPOLLET ||| (if l.readable then EPOLLIN else 0) ||| (if l.writable then EPOLLOUT else 0)

theorem mask_interest (l : Link) : mask l.readable l.writable = l.interest := by
  unfold Link.interest
  cases l.readable <;> cases l.writable <;> decide

/-- What is true of the flags of a pair, of the ends of its pipes and of what is registered. -/
structure Pair.Consistent (p : Pair) : Prop where
  writeEnd : ∀ x, (p.link x.other).readable = true → (p.link x).out.writeEnd = true
  readEnd : ∀ x, (p.link x).writable = true → (p.link x).out.readEnd = true
  halfClose : ∀ x, (p.link x).writable = false → (p.link x.other).readable = false
  bounded : ∀ x, (p.link x).out.size ≤ (p.link x).out.capacity
  registered : ∀ x, (p.link x).event_loop = true ↔
    (p.link x).readable = true ∨ (p.link x).writable = true
  events : ∀ x, (p.link x).events =
    if (p.link x).event_loop then some (p.link x).interest else none

theorem Pair.Intact.consistent {p : Pair} {temps : Side → ℕ} (intact : p.Intact temps) :
    p.Consistent := by
  refine ⟨?_, ?_, ?_, fun x => (intact.sent x).bounded, ?_, ?_⟩
  · intro x readable
    cases terminated : p.terminated with
    | false => exact (intact.live terminated x).writeEnd readable
    | true =>
        have closed := (Bool.or_eq_false_iff.mp (intact.dead terminated x.other)).1
        rw [readable] at closed
        cases closed
  · intro x writable
    cases terminated : p.terminated with
    | false => exact (intact.live terminated x).readEnd writable
    | true =>
        have closed := (Bool.or_eq_false_iff.mp (intact.dead terminated x)).2
        rw [writable] at closed
        cases closed
  · intro x closed
    cases terminated : p.terminated with
    | false => exact (intact.live terminated x).halfClose closed
    | true => exact (Bool.or_eq_false_iff.mp (intact.dead terminated x.other)).1
  · intro x
    rw [(intact.owned x).registered, Link.isOpen, Bool.or_eq_true]
  · intro x
    rw [(intact.owned x).events, (intact.owned x).registered, mask_interest]

/-- The flags, the ends of the pipes, `expire_` and the epoll masks of every pair agree. As long as
the readings of the clock leave room for `timeout_`, no `CHECK` on them fails. -/
theorem links_consistent {s : State W} (reach : Reachable k opt s) :
    (Clock.Fits s.clock s.loop.timeout → ∀ why, s.phase = .stopped why → why = .pause) ∧
      ∀ (i : ℕ) (p : Pair), s.pairs[i]? = some p → p.linked = true → p.Consistent ∧
        ∀ x, (s.loop.expire.map Prod.fst).count (i, x) = (p.link x).event_loop.toNat := by
  obtain ⟨temps, safe⟩ := safe_of_reachable k reach
  refine ⟨fun fits why stopped => ?_, fun i p found linked => ⟨?_, safe.listed i p found⟩⟩
  · rcases safe.stops why stopped with pauses | ⟨_, large⟩
    · exact pauses
    · exact absurd fits large
  · exact (safe.intact found linked).consistent

theorem links_consistent_served : (∀ why, served.phase = .stopped why → why = .pause) ∧
    (servedPair.link .server).writable = true ∧ servedPair.Consistent := by
  obtain ⟨stops, pairs⟩ := links_consistent eager served_reachable
  refine ⟨stops (by decide +kernel), by decide +kernel, ?_⟩
  exact (pairs 0 servedPair (Option.some_get _).symm (by decide +kernel)).1

/-- Peers that are as eager, with 100 s between two readings of the clock. -/
def slow : Kernel Bytes := { eager with elapse unread := (100000000000, unread) }

/-- The timeout is 1000 s less than the largest one. `New` adds the links at 900 s and at 1000 s,
and `OnEvent` of the client refreshes it at 1200 s: its deadline wraps around. -/
def overflowed : State Bytes :=
  (Runs.replay (step slow onePage)
    { loop := { timeout := ⟨9223371036854775807, by decide⟩ }
      clock := 800000000000
      world := [65, 66] }
    [.wait [.popFunc], .dispatch 0 true, .dispatch 0 true, .expire,
      .wait [.io 0 .client EPOLLIN], .dispatch 5 true]).get (by decide +kernel)

theorem overflowed_reachable : Reachable slow onePage overflowed :=
  Runs.replay_reachable _ (.start ⟨_, _, _, rfl⟩) (Option.some_get _).symm

theorem overflowed_unsorted : ∃ s : State Bytes, Reachable slow onePage s ∧
    s.clock = 1200000000000 ∧ s.phase = .stopped .unsorted :=
  ⟨overflowed, overflowed_reachable, by decide +kernel, by decide +kernel⟩

end Hcproxy.Forwarder
