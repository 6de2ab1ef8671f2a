import Hcproxy.ForwarderNew
import Hcproxy.Lib.Threads

set_option autoImplicit false

namespace Hcproxy.Forwarder

open Exec (Holds)
open Threads

variable {W : Type}

def Pair.registered (p : Pair) : ℕ :=
  (p.link .client).event_loop.toNat + (p.link .server).event_loop.toNat

/-- The loop and all handlers agree on what is registered. -/
structure Registry (s : State W) : Prop where
  total : s.loop.total_events = 1 + total Pair.registered s.pairs
  listed : ∀ (i : ℕ) (p : Pair), s.pairs[i]? = some p → ∀ x,
    (s.loop.expire.map Prod.fst).count (i, x) = (p.link x).event_loop.toNat
  known : ∀ e ∈ s.loop.expire, e.1.1 < s.pairs.length
  deadlines : ∀ e ∈ s.loop.expire, e.2 ≤ s.clock + s.loop.timeout.1.toInt

/-- What a call of a method of the pair `i` leaves alone. -/
def State.frame (s : State W) (i : ℕ) (temps : Side → ℕ) : Frame where
  id := i
  rest := total Pair.registered (s.pairs.eraseIdx i)
  foreign := s.loop.expire.filter (·.1.1 ≠ i)
  timeout := s.loop.timeout
  temps := temps

/-- What a call of a method of the pair `i` starts from. -/
def State.ctx (s : State W) (i : ℕ) (p : Pair) : Ctx W := ⟨i, p, s.loop, s.clock, s.world⟩

theorem Registry.loop {s : State W} (registry : Registry s) {i : ℕ} {p : Pair}
    (found : s.pairs[i]? = some p) (temps : Side → ℕ) :
    LoopInv (s.frame i temps) (s.ctx i p) := by
  refine ⟨rfl, rfl, ?_, registry.listed i p found, rfl, registry.deadlines⟩
  have total := registry.total
  have others := total_eraseIdx Pair.registered found
  simp only [Pair.registered, State.ctx, State.frame] at total others ⊢
  omega

theorem count_foreign (expire : List (Sock × ℤ)) {i j : ℕ} (x : Side) (other : j ≠ i) :
    ((expire.filter (·.1.1 ≠ i)).map Prod.fst).count (j, x) =
      (expire.map Prod.fst).count (j, x) := by
  induction expire with
  | nil => rfl
  | cons e rest ih =>
      by_cases same : e.1.1 = i
      · have different : e.1 ≠ (j, x) := fun eq => other (by rw [← same, eq])
        rw [List.filter_cons_of_neg (by simpa using same), ih, List.map_cons,
          List.count_cons_of_ne different]
      · rw [List.filter_cons_of_pos (by simpa using same), List.map_cons, List.map_cons,
          List.count_cons, List.count_cons, ih]

theorem Registry.left {s : State W} (registry : Registry s) {i : ℕ} {p : Pair}
    (found : s.pairs[i]? = some p) {temps : Side → ℕ} {d : Ctx W}
    (inv : LoopInv (s.frame i temps) d) (next : Phase) :
    Registry ⟨d.loop, d.clock, d.world, s.pairs.set d.id d.pair, next⟩ := by
  have id : d.id = i := inv.id
  have timeout : d.loop.timeout = s.loop.timeout := inv.timeout
  have foreign : d.loop.expire.filter (·.1.1 ≠ i) = s.loop.expire.filter (·.1.1 ≠ i) :=
    inv.foreign
  have inside : i < s.pairs.length := (List.getElem?_eq_some_iff.mp found).1
  refine ⟨?_, ?_, ?_, ?_⟩
  · have total := inv.total
    have others := total_eraseIdx Pair.registered found
    have changed := total_set Pair.registered d.pair found
    rw [id]
    simp only [Pair.registered, State.frame] at total others changed ⊢
    omega
  · intro j q foundQ x
    dsimp only at foundQ ⊢
    rw [id, List.getElem?_set] at foundQ
    split at foundQ
    · rename_i same
      subst same
      cases foundQ
      exact inv.listed x
    · rename_i different
      rw [← count_foreign d.loop.expire x (Ne.symm different), foreign,
        count_foreign _ x (Ne.symm different)]
      exact registry.listed j q foundQ x
  · intro e member
    rw [List.length_set]
    by_cases same : e.1.1 = i
    · rw [same]
      exact inside
    · have kept : e ∈ d.loop.expire.filter (·.1.1 ≠ i) :=
        List.mem_filter.mpr ⟨member, by simpa using same⟩
      rw [foreign] at kept
      exact registry.known e (List.mem_filter.mp kept).1
  · intro e member
    rw [timeout]
    exact inv.deadlines e member

/-- What holds of a pair that `New` has made, while `temps` references to its links are held. -/
structure Pair.Intact (p : Pair) (temps : Side → ℕ) : Prop where
  linked : p.linked = true
  temps : ∀ x, (p.link x).temps = temps x
  owned : ∀ x, Owned (p.link x) (p.link x.other)
  sent : ∀ x, Sent (greeting x) (p.link x) (p.link x.other)
  live : p.terminated = false → ∀ x, Live (greeting x) (p.link x) (p.link x.other)
  dead : p.terminated = true → ∀ x, (p.link x).isOpen = false

theorem Good.intact {f : Frame} {c : Ctx W} (good : Good f c) : c.pair.Intact f.temps :=
  ⟨good.linked, good.temps, good.owned, good.sent, good.live, good.dead⟩

/-- What holds of the loop and all pairs, while `temps` references to the links are held. -/
structure Sound (temps : Sock → ℕ) (s : State W) : Prop extends Registry s where
  pairs : ∀ (i : ℕ) (p : Pair), s.pairs[i]? = some p →
    p.Intact (fun x => temps (i, x)) ∨ p.Discarded ∧ ∀ x, temps (i, x) = 0
  held : ∀ h, 0 < temps h → h.1 < s.pairs.length

theorem Sound.good {temps : Sock → ℕ} {s : State W} (sound : Sound temps s) {i : ℕ} {p : Pair}
    (found : s.pairs[i]? = some p) (intact : p.Intact fun x => temps (i, x)) :
    Good (s.frame i fun x => temps (i, x)) (s.ctx i p) :=
  ⟨⟨sound.loop found _, intact.linked, intact.temps, intact.owned⟩, intact.sent, intact.live,
    intact.dead⟩

/-- The references to the links of the pair `i` have become others. -/
def rehold (temps : Sock → ℕ) (i : ℕ) (after : Side → ℕ) (h : Sock) : ℕ :=
  if h.1 = i then after h.2 else temps h

theorem Sound.left {temps : Sock → ℕ} {s : State W} (registry : Registry s) {i : ℕ} {p : Pair}
    (found : s.pairs[i]? = some p) {before after : Side → ℕ} {d : Ctx W}
    (inv : LoopInv (s.frame i before) d)
    (moved : d.pair.Intact after ∨ d.pair.Discarded ∧ ∀ x, after x = 0)
    (others : ∀ (j : ℕ) (q : Pair), j ≠ i → s.pairs[j]? = some q →
      q.Intact (fun x => temps (j, x)) ∨ q.Discarded ∧ ∀ x, temps (j, x) = 0)
    (held : ∀ h, h.1 ≠ i → 0 < temps h → h.1 < s.pairs.length) (next : Phase) :
    Sound (rehold temps i after) ⟨d.loop, d.clock, d.world, s.pairs.set d.id d.pair, next⟩ := by
  have id : d.id = i := inv.id
  refine ⟨registry.left found inv next, ?_, ?_⟩
  rotate_left
  · intro h positive
    dsimp only
    rw [List.length_set]
    by_cases same : h.1 = i
    · rw [same]
      exact (List.getElem?_eq_some_iff.mp found).1
    · rw [rehold, if_neg same] at positive
      exact held h same positive
  intro j q foundQ
  dsimp only at foundQ
  rw [id, List.getElem?_set] at foundQ
  split at foundQ
  · rename_i same
    subst same
    split at foundQ
    · cases foundQ
      simpa [rehold] using moved
    · cases foundQ
  · rename_i different
    simpa [rehold, Ne.symm different] using others j q (Ne.symm different) foundQ

theorem State.run_eq {s : State W} {i : ℕ} {p : Pair} (found : s.pairs[i]? = some p)
    (m : Exec W PUnit) (next : Phase) : s.run i m next = s.leave (m (s.ctx i p)) next := by
  rw [State.run, found]
  rfl

/-- A method of a link has returned. -/
theorem Sound.returned {temps : Sock → ℕ} {s : State W} (sound : Sound temps s) {i : ℕ} {p : Pair}
    (found : s.pairs[i]? = some p) {m : Exec W PUnit} {after : Side → ℕ} {d : Ctx W}
    (ran : m (s.ctx i p) = .ok ⟨⟩ d)
    (good : Good ((s.frame i fun x => temps (i, x)).withTemps after) d) (next : Phase) :
    s.run i m next = ⟨d.loop, d.clock, d.world, s.pairs.set i d.pair, next⟩ ∧
      Sound (rehold temps i after) (s.run i m next) := by
  have id : d.id = i := good.loop.id
  have left : s.run i m next = ⟨d.loop, d.clock, d.world, s.pairs.set d.id d.pair, next⟩ := by
    rw [State.run_eq found, ran]
    rfl
  refine ⟨by rw [left, id], ?_⟩
  rw [left]
  exact Sound.left sound.toRegistry found good.loop (Or.inl good.intact)
    (fun j q _ foundQ => sound.pairs j q foundQ) (fun h _ => sound.held h) next

/-- How a call of a method of a link may end that does not return: it waits for a system call, or a
deadline has overflowed. -/
def State.Interrupted (s : State W) (why : Stop) : Prop :=
  why = .pause ∨ why = .unsorted ∧ ¬ Clock.Fits s.clock s.loop.timeout

/-- A method of a link, run by the loop, that returns or is interrupted. -/
theorem Sound.run {temps : Sock → ℕ} {s : State W} (sound : Sound temps s) {i : ℕ} {p : Pair}
    (found : s.pairs[i]? = some p) {m : Exec W PUnit} {after : Side → ℕ}
    (holds : Holds m (pausesGood (s.frame i fun x => temps (i, x)))
      (fun _ d => Good ((s.frame i fun x => temps (i, x)).withTemps after) d) (s.ctx i p))
    (next : Phase) :
    Sound (rehold temps i after) (s.run i m next) ∧ (s.run i m next).phase = next ∨
      ∃ held why, Sound held (s.run i m next) ∧ (s.run i m next).phase = .stopped why ∧
        (s.run i m next).Interrupted why := by
  unfold Holds at holds
  cases result : m (s.ctx i p) with
  | ok a d =>
      rw [result] at holds
      obtain ⟨left, after⟩ := sound.returned found result holds next
      exact Or.inl ⟨after, by rw [left]⟩
  | error why d =>
      rw [result] at holds
      rw [State.run_eq found, result]
      have left : ∀ {held : Side → ℕ},
          Good ((s.frame i fun x => temps (i, x)).withTemps held) d →
          Sound (rehold temps i held) (s.leave (.error why d) next) :=
        fun good => Sound.left sound.toRegistry found good.loop (Or.inl good.intact)
          (fun j q _ foundQ => sound.pairs j q foundQ) (fun h _ => sound.held h) _
      cases why with
      | pause =>
          obtain ⟨held, good⟩ := holds
          exact Or.inr ⟨_, _, left good, rfl, Or.inl rfl⟩
      | unsorted =>
          obtain ⟨held, _, good, large⟩ := holds
          refine Or.inr ⟨_, _, left good, rfl, Or.inr ⟨rfl, ?_⟩⟩
          show ¬ Clock.Fits d.clock d.loop.timeout
          rw [good.loop.timeout]
          exact large
      | check | freed => exact holds.elim

/-- The handler that an event is for. -/
def Event.sock : Event → Option Sock
  | .popFunc => none
  | .io i x _ => some (i, x)

/-- The references that the loop holds when no handler is running. -/
def Phase.refs : Phase → Sock → ℕ
  | .dispatching todo, h => (todo.filterMap Event.sock).count h
  | _, _ => 0

theorem State.reports_of_events {s t : State W} {i : ℕ} {p q : Pair}
    (found : s.pairs[i]? = some p) (pairs : t.pairs = s.pairs.set i q)
    (events : ∀ x, (q.link x).events = (p.link x).events) (ev : Event) :
    t.reports ev = s.reports ev := by
  cases ev with
  | popFunc => rfl
  | io j x mask =>
      simp only [State.reports, pairs, List.getElem?_set]
      split
      · rename_i same
        subst same
        obtain ⟨inside, _⟩ := List.getElem?_eq_some_iff.mp found
        rw [found, if_pos inside]
        simp [events]
      · rfl

/-- Only a pair that was made has handlers that are registered. -/
theorem Sound.reported {temps : Sock → ℕ} {s : State W} (sound : Sound temps s) {i : ℕ} {x : Side}
    {mask : Events} (reported : s.reports (.io i x mask) = true) :
    ∃ p, s.pairs[i]? = some p ∧ p.Intact (fun y => temps (i, y)) ∧
      (p.link x).deleted = false := by
  simp only [State.reports, Option.any_eq_true] at reported
  obtain ⟨p, found, events⟩ := reported
  rcases sound.pairs i p found with intact | ⟨discarded, _⟩
  · have owned := intact.owned x
    have refs := owned.refs
    have registered : (p.link x).event_loop = true := by
      rw [owned.registered, ← owned.isOpen_eq]
      exact events
    refine ⟨p, found, intact, ?_⟩
    rw [registered, Bool.toNat_true] at refs
    apply Bool.eq_false_iff.mpr
    intro deleted
    have := owned.deleted.mp deleted
    omega
  · rw [(discarded.links x).events] at events
    cases events

theorem Sound.congr {temps held : Sock → ℕ} {s : State W} (sound : Sound temps s)
    (same : ∀ h, held h = temps h) : Sound held s := by
  rw [funext same]
  exact sound

theorem rehold_hold (s : State W) (temps : Sock → ℕ) (i : ℕ) (x : Side) (h : Sock) :
    rehold temps i ((s.frame i fun y => temps (i, y)).hold x).temps h =
      temps h + if (i, x) = h then 1 else 0 := by
  obtain ⟨j, y⟩ := h
  simp only [rehold, Frame.hold, Frame.withTemps, State.frame]
  by_cases pair : j = i
  · subst pair
    by_cases side : y = x
    · simp [side]
    · simp [side, Ne.symm side]
  · simp [pair, Ne.symm pair]

theorem rehold_release (s : State W) (temps : Sock → ℕ) (i : ℕ) (x : Side) (h : Sock) :
    rehold temps i ((s.frame i fun y => temps (i, y)).release x).temps h =
      temps h - if (i, x) = h then 1 else 0 := by
  obtain ⟨j, y⟩ := h
  simp only [rehold, Frame.release, Frame.withTemps, State.frame]
  by_cases pair : j = i
  · subst pair
    by_cases side : y = x
    · simp [side]
    · simp [side, Ne.symm side]
  · simp [pair, Ne.symm pair]

theorem rehold_same (temps : Sock → ℕ) (i : ℕ) (h : Sock) :
    rehold temps i (fun x => temps (i, x)) h = temps h := by
  obtain ⟨j, y⟩ := h
  simp only [rehold]
  split
  · rename_i same
    rw [same]
  · rfl

/-- The loop takes a reference for each event of a batch. -/
theorem Sound.holdAll {temps : Sock → ℕ} {s : State W} (sound : Sound temps s)
    (batch : List Event) (reported : ∀ ev ∈ batch, s.reports ev = true) :
    Sound (fun h => temps h + (batch.filterMap Event.sock).count h) (s.holdAll batch) ∧
      (s.holdAll batch).phase = s.phase := by
  induction batch generalizing s temps with
  | nil => exact ⟨sound.congr fun _ => rfl, rfl⟩
  | cons ev rest ih =>
      have reportedRest : ∀ ev ∈ rest, s.reports ev = true :=
        fun ev member => reported ev (List.mem_cons_of_mem _ member)
      cases ev with
      | popFunc =>
          obtain ⟨held, phase⟩ := ih sound reportedRest
          exact ⟨held.congr fun _ => rfl, phase⟩
      | io i x mask =>
          obtain ⟨p, found, intact, alive⟩ := sound.reported (reported _ List.mem_cons_self)
          obtain ⟨_, d, ran, good, events⟩ :=
            (hold_spec (x := x) (sound.good found intact) alive).returns
          obtain ⟨left, soundT⟩ := sound.returned found ran good s.phase
          rw [State.holdAll]
          obtain ⟨held, phase⟩ := ih soundT fun ev member =>
            (State.reports_of_events found (by rw [left]) events ev).trans (reportedRest ev member)
          refine ⟨held.congr ?_, phase.trans (by rw [left])⟩
          intro h
          have more := rehold_hold s temps i x h
          dsimp only [Frame.hold, Frame.withTemps] at more
          simp only [more, Event.sock, List.filterMap_cons, List.count_cons, beq_iff_eq]
          omega

/-- What holds of a loop between two steps. -/
structure Safe (temps : Sock → ℕ) (s : State W) : Prop extends Sound temps s where
  stops : ∀ why, s.phase = .stopped why → s.Interrupted why
  refs : (∀ why, s.phase ≠ .stopped why) → ∀ h, temps h = s.phase.refs h

theorem Safe.interrupted {temps : Sock → ℕ} {s : State W} {why : Stop} (sound : Sound temps s)
    (stopped : s.phase = .stopped why) (interrupted : s.Interrupted why) : Safe temps s := by
  refine ⟨sound, ?_, ?_⟩
  · intro other same
    rw [stopped] at same
    cases same
    exact interrupted
  · exact fun running => absurd stopped (running _)

theorem Safe.running {temps : Sock → ℕ} {s : State W} (sound : Sound temps s)
    (running : ∀ why, s.phase ≠ .stopped why) (refs : ∀ h, temps h = s.phase.refs h) :
    Safe temps s :=
  ⟨sound, fun why stopped => absurd stopped (running why), fun _ => refs⟩

/-- A state that differs in what is outside or in how late it is. -/
theorem Sound.of_same {temps : Sock → ℕ} {s t : State W} (sound : Sound temps s)
    (loop : t.loop = s.loop) (pairs : t.pairs = s.pairs) (clock : s.clock ≤ t.clock) :
    Sound temps t := by
  refine ⟨⟨?_, ?_, ?_, ?_⟩, ?_, ?_⟩
  · rw [loop, pairs]
    exact sound.total
  · rw [loop, pairs]
    exact sound.listed
  · rw [loop, pairs]
    exact sound.known
  · intro e member
    have := sound.deadlines e (loop ▸ member)
    rw [loop]
    omega
  · rw [pairs]
    exact sound.pairs
  · rw [pairs]
    exact sound.held

variable (k : Kernel W) {opt : Options}

theorem safe_init {s : State W} (initial : Init s) : Safe (fun _ => 0) s := by
  obtain ⟨timeout, clock, world, rfl⟩ := initial
  refine Safe.running ⟨⟨rfl, ?_, ?_, ?_⟩, ?_, ?_⟩ (by simp) (fun _ => rfl)
  · intro i p found
    simp at found
  · exact fun e member => absurd member List.not_mem_nil
  · exact fun e member => absurd member List.not_mem_nil
  · intro i p found
    simp at found
  · exact fun h positive => absurd positive (Nat.lt_irrefl 0)

/-- A handler that the loop holds a reference to. -/
theorem Sound.found {temps : Sock → ℕ} {s : State W} (sound : Sound temps s) {i : ℕ} {x : Side}
    (positive : 0 < temps (i, x)) :
    ∃ p, s.pairs[i]? = some p ∧ p.Intact fun y => temps (i, y) := by
  have inside := sound.held (i, x) positive
  have found : s.pairs[i]? = some s.pairs[i] := List.getElem?_eq_getElem inside
  rcases sound.pairs i _ found with intact | ⟨_, idle⟩
  · exact ⟨_, found, intact⟩
  · have := idle x
    omega

/-- A handler whose node is in `expire_`. -/
theorem Sound.expiring {temps : Sock → ℕ} {s : State W} (sound : Sound temps s) {i : ℕ} {x : Side}
    {deadline : ℤ} (member : ((i, x), deadline) ∈ s.loop.expire) :
    ∃ p, s.pairs[i]? = some p ∧ (p.Intact fun y => temps (i, y)) ∧
      (p.link x).deleted = false ∧ (p.link x).event_loop = true := by
  have inside := sound.known _ member
  have found : s.pairs[i]? = some s.pairs[i] := List.getElem?_eq_getElem inside
  have listed := sound.listed i _ found x
  have positive : 0 < (s.loop.expire.map Prod.fst).count (i, x) :=
    List.count_pos_iff.mpr (List.mem_map.mpr ⟨_, member, rfl⟩)
  have registered : (s.pairs[i].link x).event_loop = true := by
    cases flag : (s.pairs[i].link x).event_loop with
    | true => rfl
    | false =>
        rw [flag, Bool.toNat_false] at listed
        omega
  rcases sound.pairs i _ found with intact | ⟨discarded, _⟩
  · refine ⟨_, found, intact, ?_, registered⟩
    have owned := intact.owned x
    have refs := owned.refs
    rw [registered, Bool.toNat_true] at refs
    apply Bool.eq_false_iff.mpr
    intro deleted
    have := owned.deleted.mp deleted
    omega
  · rw [(discarded.links x).registered] at registered
    cases registered

/-- Two handlers that have just been constructed are not registered. -/
theorem Registry.extended {s : State W} (registry : Registry s) :
    Registry { s with pairs := s.pairs ++ [({} : Pair)] } := by
  refine ⟨?_, ?_, ?_, registry.deadlines⟩
  · rw [total_append, total_cons]
    exact registry.total
  · intro i p found x
    rcases of_getElem?_snoc found with ⟨_, before⟩ | ⟨rfl, rfl⟩
    · exact registry.listed i p before x
    · rw [List.count_eq_zero_of_not_mem]
      · cases x <;> rfl
      · intro listed
        obtain ⟨e, member, same⟩ := List.mem_map.mp listed
        have := registry.known e member
        rw [same] at this
        exact Nat.lt_irrefl _ this
  · intro e member
    have := registry.known e member
    rw [List.length_append]
    exact Nat.lt_add_right _ this

theorem Sound.runNew (opt : Options) {temps : Sock → ℕ} {s : State W} (sound : Sound temps s)
    (next : Phase) :
    Sound temps (s.runNew k opt next) ∧ (s.runNew k opt next).phase = next := by
  have registry := sound.toRegistry.extended
  have found : (s.pairs ++ [({} : Pair)])[s.pairs.length]? = some {} := by simp
  have inv := registry.loop found fun _ => 0
  obtain ⟨_, d, ran, after⟩ := (new_spec k opt inv rfl fun _ => rfl).returns
  have loop : LoopInv (State.frame { s with pairs := s.pairs ++ [({} : Pair)] } s.pairs.length
      fun _ => 0) d := after.elim (fun good => good.loop) fun gone => gone.1
  have moved : d.pair.Intact (fun _ => 0) ∨ d.pair.Discarded ∧ ∀ x : Side, (fun _ => 0) x = 0 :=
    after.elim (fun good => Or.inl good.intact) fun gone => Or.inr ⟨gone.2, fun _ => rfl⟩
  have others : ∀ (j : ℕ) (q : Pair), j ≠ s.pairs.length →
      (s.pairs ++ [({} : Pair)])[j]? = some q →
      q.Intact (fun x => temps (j, x)) ∨ q.Discarded ∧ ∀ x, temps (j, x) = 0 := by
    intro j q different foundQ
    rcases of_getElem?_snoc foundQ with ⟨_, before⟩ | ⟨same, _⟩
    · exact sound.pairs j q before
    · exact absurd same different
  have left := Sound.left registry found loop moved others ?_ next
  · have result : s.runNew k opt next = ⟨d.loop, d.clock, d.world,
        (s.pairs ++ [({} : Pair)]).set d.id d.pair, next⟩ := by
      rw [State.runNew]
      exact congrArg (State.leave _ · next) ran
    rw [result]
    refine ⟨left.congr ?_, rfl⟩
    intro h
    rw [rehold]
    split
    · rename_i same
      apply Nat.eq_zero_of_not_pos
      intro positive
      have := sound.held h positive
      omega
    · rfl
  · intro h _ positive
    have := sound.held h positive
    rw [List.length_append]
    exact Nat.lt_add_right _ this

theorem Sound.dispatch {temps : Sock → ℕ} {s : State W} (sound : Sound temps s) {i : ℕ} {x : Side}
    {mask : Events} {rest : List Event} (fuel : ℕ) (leftFirst : Bool)
    (refs : ∀ h, temps h = (Phase.dispatching (.io i x mask :: rest)).refs h) :
    ∃ held, Safe held (s.run i (dispatch k fuel x mask leftFirst) (.dispatching rest)) := by
  have held : ∀ h, temps h = (Phase.dispatching rest).refs h + if (i, x) = h then 1 else 0 := by
    intro h
    rw [refs, Phase.refs, Phase.refs, List.filterMap_cons]
    simp only [Event.sock, List.count_cons, beq_iff_eq]
  have positive : 0 < temps (i, x) := by
    rw [held, if_pos rfl]
    omega
  obtain ⟨p, found, intact⟩ := sound.found positive
  have good := sound.good found intact
  rcases sound.run found (dispatch_spec k fuel x mask leftFirst good positive)
    (.dispatching rest) with ⟨after, phase⟩ | ⟨some, _, after, phase, interrupted⟩
  · refine ⟨_, .running after (by simp [phase]) ?_⟩
    intro h
    have fewer := rehold_release s temps i x h
    dsimp only [Frame.release, Frame.withTemps] at fewer
    rw [fewer, held, phase]
    omega
  · exact ⟨some, .interrupted after phase interrupted⟩

theorem Sound.expire {temps : Sock → ℕ} {s : State W} (sound : Sound temps s) {i : ℕ} {x : Side}
    {deadline : ℤ} (member : ((i, x), deadline) ∈ s.loop.expire) (idle : ∀ h, temps h = 0) :
    ∃ held, Safe held (s.run i (Forwarder.expire k x) .expiring) := by
  obtain ⟨p, found, intact, alive, registered⟩ := sound.expiring member
  rcases sound.run found (expire_spec k x (sound.good found intact) alive registered)
    .expiring with ⟨after, phase⟩ | ⟨some, _, after, phase, interrupted⟩
  · refine ⟨_, .running (after.congr fun h => (rehold_same temps i h).symm) (by simp [phase]) ?_⟩
    intro h
    rw [phase, idle]
    rfl
  · exact ⟨some, .interrupted after phase interrupted⟩

variable (opt) in
/-- What a step of the loop can do. -/
inductive Moved (s : State W) : Action W → State W → Prop
  | outside (world : W) : Moved s (.outside world) { s with world }
  | wait {batch : List Event} (phase : s.phase = .waiting)
      (reported : ∀ ev ∈ batch, s.reports ev = true) :
      Moved s (.wait batch) (({ s with
        world := k.wait s.world batch, phase := .dispatching batch } : State W).holdAll batch)
  | dispatched {fuel : ℕ} {leftFirst : Bool} (phase : s.phase = .dispatching []) :
      Moved s (.dispatch fuel leftFirst) { s with phase := .expiring }
  | popFunc {fuel : ℕ} {leftFirst : Bool} {rest : List Event}
      (phase : s.phase = .dispatching (.popFunc :: rest)) :
      Moved s (.dispatch fuel leftFirst) (s.runNew k opt (.dispatching rest))
  | io {fuel : ℕ} {leftFirst : Bool} {i : ℕ} {x : Side} {events : Events} {rest : List Event}
      (phase : s.phase = .dispatching (.io i x events :: rest)) :
      Moved s (.dispatch fuel leftFirst)
        (s.run i (dispatch k fuel x events leftFirst) (.dispatching rest))
  | idle (phase : s.phase = .expiring) (empty : s.loop.expire = []) :
      Moved s .expire { s with phase := .waiting }
  | early {h : Sock} {deadline : ℤ} {rest : List (Sock × ℤ)} (phase : s.phase = .expiring)
      (head : s.loop.expire = (h, deadline) :: rest)
      (early : (s.clock + (k.elapse s.world).1 : ℕ) < deadline) :
      Moved s .expire { s with
        clock := s.clock + (k.elapse s.world).1, world := (k.elapse s.world).2, phase := .waiting }
  | expires {h : Sock} {deadline : ℤ} {rest : List (Sock × ℤ)} (phase : s.phase = .expiring)
      (head : s.loop.expire = (h, deadline) :: rest)
      (due : deadline ≤ (s.clock + (k.elapse s.world).1 : ℕ)) :
      Moved s .expire (({ s with
        clock := s.clock + (k.elapse s.world).1, world := (k.elapse s.world).2 } : State W).run h.1
          (expire k h.2) .expiring)

theorem moved_of_step {s t : State W} {a : Action W} (stepped : step k opt s a = some t) :
    Moved k opt s a t := by
  cases a with
  | outside world =>
      cases stepped
      exact .outside world
  | wait batch =>
      cases phase : s.phase with
      | waiting =>
          simp only [step, phase] at stepped
          split at stepped
          · rename_i reported
            cases stepped
            exact .wait phase (List.all_eq_true.mp reported)
          · cases stepped
      | dispatching | expiring | stopped => simp [step, phase] at stepped
  | dispatch fuel leftFirst =>
      cases phase : s.phase with
      | dispatching todo =>
          cases todo with
          | nil =>
              simp only [step, phase, Option.some.injEq] at stepped
              subst stepped
              exact .dispatched phase
          | cons ev rest =>
              cases ev with
              | popFunc =>
                  simp only [step, phase, Option.some.injEq] at stepped
                  subst stepped
                  exact .popFunc phase
              | io i x events =>
                  simp only [step, phase, Option.some.injEq] at stepped
                  subst stepped
                  exact .io phase
      | waiting | expiring | stopped => simp [step, phase] at stepped
  | expire =>
      cases phase : s.phase with
      | expiring =>
          simp only [step, phase] at stepped
          split at stepped
          · rename_i empty
            cases stepped
            exact .idle phase empty
          · rename_i head
            split at stepped
            · rename_i early
              cases stepped
              exact .early phase head early
            · rename_i due
              cases stepped
              exact .expires phase head (Int.not_lt.mp due)
      | waiting | dispatching | stopped => simp [step, phase] at stepped

theorem step_safe {temps : Sock → ℕ} {s t : State W} (safe : Safe temps s) {a : Action W}
    (moved : step k opt s a = some t) : ∃ held, Safe held t := by
  have refs : ∀ {phase : Phase}, s.phase = phase → (∀ why, phase ≠ .stopped why) →
      ∀ h, temps h = phase.refs h := by
    rintro _ rfl running
    exact safe.refs running
  cases moved_of_step k moved with
  | outside => exact ⟨temps, safe.of_same rfl rfl (Nat.le_refl _), safe.stops, safe.refs⟩
  | @wait batch phase reported =>
      have idle : ∀ h, temps h = 0 := refs phase (by simp)
      obtain ⟨held, left⟩ := (safe.toSound.of_same rfl rfl (Nat.le_refl _) :
        Sound temps { s with
          world := k.wait s.world batch, phase := .dispatching batch }).holdAll batch reported
      refine ⟨_, .running held (by simp [left]) ?_⟩
      intro h
      rw [left, idle]
      exact Nat.zero_add _
  | dispatched phase =>
      have held := refs phase (by simp)
      exact ⟨temps, .running (safe.of_same rfl rfl (Nat.le_refl _)) (by simp) held⟩
  | @popFunc _ _ rest phase =>
      have held := refs phase (by simp)
      obtain ⟨after, left⟩ := safe.runNew k opt (.dispatching rest)
      exact ⟨temps, .running after (by simp [left]) (by rw [left]; exact held)⟩
  | io phase => exact safe.dispatch k _ _ (refs phase (by simp))
  | idle phase =>
      have held := refs phase (by simp)
      exact ⟨temps, .running (safe.of_same rfl rfl (Nat.le_refl _)) (by simp) held⟩
  | early phase =>
      have held := refs phase (by simp)
      exact ⟨temps, .running (safe.of_same rfl rfl (Nat.le_add_right _ _)) (by simp) held⟩
  | expires phase head =>
      have later : Sound temps { s with
          clock := s.clock + (k.elapse s.world).1, world := (k.elapse s.world).2 } :=
        safe.of_same rfl rfl (Nat.le_add_right _ _)
      exact later.expire k (head ▸ List.mem_cons_self) (refs phase (by simp))

end Hcproxy.Forwarder
