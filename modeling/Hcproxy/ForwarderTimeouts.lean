import Hcproxy.ForwarderDeadlines

set_option autoImplicit false

namespace Hcproxy.Forwarder

open Exec (Holds Relates)
open Threads

variable {W : Type} (k : Kernel W) {opt : Options}

/-- What the loop may do to the deadlines from one state to another. -/
structure State.Later (s t : State W) : Prop where
  clock : s.clock ≤ t.clock
  timeout : t.loop.timeout = s.loop.timeout
  expire : ∀ e ∈ t.loop.expire, e ∈ s.loop.expire ∨ SetIn s.loop.timeout s.clock t.clock e.2

theorem State.Later.same {s t : State W} (clock : s.clock ≤ t.clock) (loop : t.loop = s.loop) :
    s.Later t :=
  ⟨clock, by rw [loop], fun _ member => Or.inl (loop ▸ member)⟩

theorem State.Later.trans {s t u : State W} (first : s.Later t) (second : t.Later u) :
    s.Later u := by
  refine ⟨Nat.le_trans first.clock second.clock, second.timeout.trans first.timeout, ?_⟩
  intro e member
  rcases second.expire e member with before | set
  · exact (first.expire e before).imp_right fun set => set.wider (Nat.le_refl _) second.clock
  · rw [first.timeout] at set
    exact Or.inr (set.wider first.clock (Nat.le_refl _))

theorem Pushes.later {s t : State W} {i : ℕ} {p : Pair} {d : Ctx W} (pushes : Pushes (s.ctx i p) d)
    (loop : t.loop = d.loop) (clock : t.clock = d.clock) : s.Later t := by
  refine ⟨by rw [clock]; exact pushes.clock, by rw [loop]; exact pushes.timeout, ?_⟩
  intro e member
  rw [loop] at member
  rw [clock]
  exact (pushes.expire e member).imp (fun before => before) And.right

theorem later_leave {s t : State W} {i : ℕ} {p : Pair} {m : Exec W PUnit}
    (pushes : Relates Pushes m (s.ctx i p)) (next : Phase) :
    s.Later (t.leave (m (s.ctx i p)) next) := by
  unfold Relates Holds at pushes
  cases ran : m (s.ctx i p) with
  | ok _ d =>
      rw [ran] at pushes
      exact pushes.later rfl rfl
  | error why d =>
      rw [ran] at pushes
      exact pushes.later rfl rfl

@[simp] theorem length_leave (s : State W) (result : EStateM.Result Stop (Ctx W) PUnit)
    (next : Phase) : (s.leave result next).pairs.length = s.pairs.length := by
  cases result with
  | ok _ d => exact List.length_set
  | error why d => exact List.length_set

theorem later_run (s : State W) (i : ℕ) {m : Exec W PUnit} (next : Phase)
    (pushes : ∀ c, Relates Pushes m c) : s.Later (s.run i m next) ∧
      (s.run i m next).pairs.length = s.pairs.length := by
  cases found : s.pairs[i]? with
  | none =>
      rw [State.run, found]
      exact ⟨.same (Nat.le_refl _) rfl, rfl⟩
  | some p =>
      rw [State.run_eq found]
      exact ⟨later_leave (pushes _) next, length_leave s _ next⟩

theorem later_holdAll (s : State W) (batch : List Event) : s.Later (s.holdAll batch) ∧
    (s.holdAll batch).pairs.length = s.pairs.length := by
  induction batch generalizing s with
  | nil => exact ⟨.same (Nat.le_refl _) rfl, rfl⟩
  | cons ev rest ih =>
      cases ev with
      | popFunc => exact ih s
      | io i x events =>
          obtain ⟨first, length⟩ := later_run s i s.phase fun c =>
            Relates.pushes (rests_hold x c)
          obtain ⟨second, lengthToo⟩ := ih (s.run i (hold x) s.phase)
          exact ⟨first.trans second, lengthToo.trans length⟩

/-- A loop with the readings of the clock at which something began that ought to keep a pair alive:
its `New`, or an `OnEvent` of one of its links in which something was moved. -/
structure Timed (W : Type) where
  state : State W
  began : List (ℕ × ℕ) := []

/-- What begins in a step from `s` to `t`, by the pair it is about. -/
def State.begins (s t : State W) : Action W → List (ℕ × ℕ)
  | .dispatch _ _ =>
    match s.phase with
    | .dispatching (.popFunc :: _) => [(s.pairs.length, s.clock)]
    | .dispatching (.io i _ _ :: _) =>
      if t.pairs[i]?.map Pair.traffic = s.pairs[i]?.map Pair.traffic then [] else [(i, s.clock)]
    | _ => []
  | _ => []

/-- Time also passes while the loop does nothing. -/
inductive Tick (W : Type)
  | acts (a : Action W)
  | passes (elapsed : ℕ)

def Timed.step (opt : Options) (t : Timed W) : Tick W → Option (Timed W)
  | .acts a => (Forwarder.step k opt t.state a).map fun s => ⟨s, t.began ++ t.state.begins s a⟩
  | .passes elapsed => some { t with state := { t.state with clock := t.state.clock + elapsed } }

def Timed.Reachable (opt : Options) : Timed W → Prop :=
  Runs.Reachable (fun t => Init t.state ∧ t.began = []) (Runs.Moves (Timed.step k opt) Runs.always)

/-- Every run of the loop is one in which the readings are kept. -/
theorem timed_of_reachable {s : State W} (reach : Forwarder.Reachable k opt s) :
    ∃ began, Timed.Reachable k opt ⟨s, began⟩ := by
  induction reach with
  | start initial => exact ⟨[], .start ⟨initial, rfl⟩⟩
  | move _ moved ih =>
      obtain ⟨began, before⟩ := ih
      obtain ⟨a, _, stepped⟩ := moved
      exact ⟨_, .move before ⟨.acts a, trivial, by rw [Timed.step, stepped]; rfl⟩⟩

/-- Every deadline was set after whatever began for the pair of its link. -/
structure Timed.OnTime (t : Timed W) : Prop where
  known : ∀ b ∈ t.began, b.1 < t.state.pairs.length
  early : ∀ b ∈ t.began, b.2 ≤ t.state.clock
  made : ∀ i < t.state.pairs.length, ∃ b ∈ t.began, b.1 = i
  pushed : ∀ e ∈ t.state.loop.expire, ∀ b ∈ t.began, b.1 = e.1.1 →
    SetIn t.state.loop.timeout b.2 t.state.clock e.2

/-- What has begun in a step is about a pair that is there by then, and has pushed back the
deadlines of that pair. -/
theorem Timed.OnTime.next {s t : State W} {began new : List (ℕ × ℕ)}
    (onTime : Timed.OnTime ⟨s, began⟩) (later : s.Later t)
    (length : ∀ i, i < t.pairs.length ↔ i < s.pairs.length ∨ ∃ b ∈ new, b.1 = i)
    (now : ∀ b ∈ new, b.2 = s.clock)
    (due : ∀ e ∈ t.loop.expire, ∀ b ∈ new, b.1 = e.1.1 →
      SetIn s.loop.timeout s.clock t.clock e.2) :
    Timed.OnTime ⟨t, began ++ new⟩ := by
  have clock := later.clock
  have timeout := later.timeout
  refine ⟨?_, ?_, ?_, ?_⟩
  · intro b member
    rcases List.mem_append.mp member with before | fresh
    · exact (length b.1).mpr (Or.inl (onTime.known b before))
    · exact (length b.1).mpr (Or.inr ⟨b, fresh, rfl⟩)
  · intro b member
    rcases List.mem_append.mp member with before | fresh
    · exact Nat.le_trans (onTime.early b before) clock
    · rw [now b fresh]
      exact clock
  · intro i inside
    rcases (length i).mp inside with before | ⟨b, fresh, own⟩
    · obtain ⟨b, member, own⟩ := onTime.made i before
      exact ⟨b, List.mem_append_left _ member, own⟩
    · exact ⟨b, List.mem_append_right _ fresh, own⟩
  · intro e inside b member own
    show SetIn t.loop.timeout b.2 t.clock e.2
    rw [timeout]
    rcases List.mem_append.mp member with before | fresh
    · rcases later.expire e inside with old | set
      · exact (onTime.pushed e old b before own).wider (Nat.le_refl _) clock
      · exact set.wider (onTime.early b before) (Nat.le_refl _)
    · rw [now b fresh]
      exact due e inside b fresh own

/-- A step in which nothing begins. -/
theorem Timed.OnTime.rests {s t : State W} {began : List (ℕ × ℕ)}
    (onTime : Timed.OnTime ⟨s, began⟩) (later : s.Later t)
    (length : t.pairs.length = s.pairs.length) : Timed.OnTime ⟨t, began ++ []⟩ := by
  refine onTime.next later ?_ nofun fun _ _ _ none => absurd none List.not_mem_nil
  intro i
  simp [length]

/-- `OnEvent`, if it is still to be called. -/
theorem Timed.OnTime.dispatch {s t : State W} {temps : Sock → ℕ} {began : List (ℕ × ℕ)} {i : ℕ}
    {x : Side} {events : Events} {rest : List Event} {fuel : ℕ} {leftFirst : Bool}
    (safe : Safe temps s) (onTime : Timed.OnTime ⟨s, began⟩)
    (phase : s.phase = .dispatching (.io i x events :: rest))
    (moved : s.run i (Forwarder.dispatch k fuel x events leftFirst) (.dispatching rest) = t)
    (running : ∀ why, t.phase ≠ .stopped why) :
    Timed.OnTime ⟨t, began ++ s.begins t (.dispatch fuel leftFirst)⟩ := by
  have positive : 0 < temps (i, x) := by
    rw [safe.refs (by simp [phase]) (i, x), phase]
    simp [Phase.refs, Event.sock]
  obtain ⟨p, found, intact⟩ := safe.found positive
  have pushed := dispatch_pushed (k := k) fuel x events leftFirst (safe.good found intact) positive
  rw [State.run_eq found] at moved
  unfold Holds at pushed
  cases ran : Forwarder.dispatch k fuel x events leftFirst (s.ctx i p) with
  | error why d =>
      rw [ran] at moved
      subst moved
      exact absurd rfl (running why)
  | ok _ d =>
      rw [ran] at moved pushed
      subst moved
      have id : d.id = i := pushed.id
      have inside : i < s.pairs.length := (List.getElem?_eq_some_iff.mp found).1
      have later := pushed.toPushes.later (t := s.leave (.ok ⟨⟩ d) (.dispatching rest)) rfl rfl
      have after : (s.leave (.ok ⟨⟩ d) (.dispatching rest)).pairs[i]? = some d.pair := by
        show (s.pairs.set d.id d.pair)[i]? = some d.pair
        rw [id, List.getElem?_set_self inside]
      simp only [State.begins, phase, found, after, Option.map_some, Option.some.injEq]
      split
      · exact onTime.rests later (length_leave s _ _)
      · rename_i active
        have due := pushed.due.resolve_left active
        refine onTime.next later ?_ ?_ ?_
        · intro j
          rw [length_leave]
          constructor
          · exact Or.inl
          · rintro (before | ⟨b, fresh, rfl⟩)
            · exact before
            · cases List.mem_singleton.mp fresh
              exact inside
        · intro b fresh
          cases List.mem_singleton.mp fresh
          rfl
        · intro e member b fresh own
          cases List.mem_singleton.mp fresh
          have set := due e.1.2 e member (by rw [id]; exact Prod.ext own.symm rfl)
          rw [pushed.timeout] at set
          exact set

/-- `New`, which the loop runs as a function that was scheduled. -/
theorem Timed.OnTime.runNew {s t : State W} {temps : Sock → ℕ} {began : List (ℕ × ℕ)}
    {rest : List Event} {fuel : ℕ} {leftFirst : Bool} (safe : Safe temps s)
    (onTime : Timed.OnTime ⟨s, began⟩) (phase : s.phase = .dispatching (.popFunc :: rest))
    (moved : s.runNew k opt (.dispatching rest) = t) :
    Timed.OnTime ⟨t, began ++ s.begins t (.dispatch fuel leftFirst)⟩ := by
  subst moved
  have later : s.Later (s.runNew k opt (.dispatching rest)) := by
    rw [State.runNew]
    exact later_leave (s := s) (i := s.pairs.length) (p := {}) (pushes_new opt _) _
  have length : (s.runNew k opt (.dispatching rest)).pairs.length = s.pairs.length + 1 := by
    rw [State.runNew, length_leave, List.length_append]
    rfl
  simp only [State.begins, phase]
  refine onTime.next later ?_ ?_ ?_
  · intro i
    rw [length]
    simp only [List.mem_singleton, exists_eq_left]
    omega
  · intro b fresh
    cases List.mem_singleton.mp fresh
    rfl
  · intro e member b fresh own
    cases List.mem_singleton.mp fresh
    rcases later.expire e member with old | set
    · have inside := safe.known e old
      rw [← own] at inside
      exact absurd inside (Nat.lt_irrefl _)
    · exact set

theorem step_onTime {s t : State W} {temps : Sock → ℕ} {began : List (ℕ × ℕ)} {a : Action W}
    (safe : Safe temps s) (onTime : (∀ why, s.phase ≠ .stopped why) → Timed.OnTime ⟨s, began⟩)
    (stepped : step k opt s a = some t) (running : ∀ why, t.phase ≠ .stopped why) :
    Timed.OnTime ⟨t, began ++ s.begins t a⟩ := by
  cases moved_of_step k stepped with
  | outside => exact (onTime running).rests (.same (Nat.le_refl _) rfl) rfl
  | @wait batch phase =>
      obtain ⟨later, length⟩ := later_holdAll { s with
        world := k.wait s.world batch, phase := .dispatching batch } batch
      have waits : s.Later { s with
          world := k.wait s.world batch, phase := .dispatching batch } :=
        .same (Nat.le_refl _) rfl
      exact (onTime (by simp [phase])).rests (waits.trans later) length
  | dispatched phase =>
      simp only [State.begins, phase]
      exact (onTime (by simp [phase])).rests (.same (Nat.le_refl _) rfl) rfl
  | popFunc phase => exact .runNew k safe (onTime (by simp [phase])) phase rfl
  | io phase => exact .dispatch k safe (onTime (by simp [phase])) phase rfl running
  | idle phase => exact (onTime (by simp [phase])).rests (.same (Nat.le_refl _) rfl) rfl
  | early phase => exact (onTime (by simp [phase])).rests (.same (Nat.le_add_right _ _) rfl) rfl
  | @expires h deadline rest phase head =>
      have later : s.Later { s with
          clock := s.clock + (k.elapse s.world).1, world := (k.elapse s.world).2 } :=
        .same (Nat.le_add_right _ _) rfl
      obtain ⟨ran, length⟩ := later_run { s with
        clock := s.clock + (k.elapse s.world).1, world := (k.elapse s.world).2 }
        h.1 .expiring fun c => pushes_expire (k := k) h.2 c
      exact (onTime (by simp [phase])).rests (later.trans ran) length

theorem onTime_of_reachable {t : Timed W} (reach : Timed.Reachable k opt t) :
    (∃ temps, Safe temps t.state) ∧ ((∀ why, t.state.phase ≠ .stopped why) → t.OnTime) := by
  refine Runs.Reachable.invariant (I := fun t : Timed W => (∃ temps, Safe temps t.state) ∧
    ((∀ why, t.state.phase ≠ .stopped why) → t.OnTime)) ?_ ?_ reach
  · rintro ⟨s, began⟩ ⟨initial, rfl⟩
    refine ⟨⟨_, safe_init initial⟩, fun _ => ?_⟩
    obtain ⟨timeout, clock, world, rfl⟩ := initial
    refine ⟨nofun, nofun, ?_, nofun⟩
    exact fun i inside => absurd inside (Nat.not_lt_zero i)
  · rintro ⟨s, began⟩ u ⟨⟨temps, safe⟩, onTime⟩ ⟨tick, _, moved⟩
    cases tick with
    | acts a =>
        rw [Timed.step, Option.map_eq_some_iff] at moved
        obtain ⟨t, stepped, rfl⟩ := moved
        exact ⟨step_safe k safe stepped, step_onTime k safe onTime stepped⟩
    | passes elapsed =>
        cases moved
        have stops : ∀ why, s.phase = .stopped why → State.Interrupted { s with
            clock := s.clock + elapsed } why := by
          intro why stopped
          refine (safe.stops why stopped).imp_right fun ⟨same, large⟩ => ⟨same, fun fits => ?_⟩
          exact large (Clock.Fits.earlier fits (Nat.le_add_right _ _))
        refine ⟨⟨temps, safe.of_same rfl rfl (Nat.le_add_right _ _), stops, safe.refs⟩, ?_⟩
        intro running
        have before := onTime running
        have same := before.rests (t := { s with clock := s.clock + elapsed })
          (.same (Nat.le_add_right _ _) rfl) rfl
        rwa [List.append_nil] at same

/-- The handler whose `OnTimeout` the loop is about to call, and what the clock reads then. -/
def State.timesOut (s : State W) : Option (Sock × ℕ) :=
  match s.phase, s.loop.expire with
  | .expiring, (h, deadline) :: _ =>
    if s.clock + (k.elapse s.world).1 < deadline then none
    else some (h, s.clock + (k.elapse s.world).1)
  | _, _ => none

theorem timesOut_iff {s : State W} {h : Sock} {now : ℕ} : s.timesOut k = some (h, now) ↔
    s.phase = .expiring ∧ now = s.clock + (k.elapse s.world).1 ∧
      ∃ deadline rest, s.loop.expire = (h, deadline) :: rest ∧ deadline ≤ now := by
  unfold State.timesOut
  constructor
  · intro out
    split at out
    · rename_i g deadline rest phase head
      split at out
      · cases out
      · rename_i due
        cases out
        exact ⟨phase, rfl, deadline, rest, head, Int.not_lt.mp due⟩
    · cases out
  · rintro ⟨phase, rfl, deadline, rest, head, due⟩
    rw [phase, head]
    exact if_neg (Int.not_lt.mpr due)

/-- That is when the loop runs what calls `OnTimeout`. -/
theorem step_timesOut {s : State W} {h : Sock} {now : ℕ} (out : s.timesOut k = some (h, now)) :
    step k opt s .expire = some
      (({ s with clock := now, world := (k.elapse s.world).2 } : State W).run h.1 (expire k h.2)
        .expiring) := by
  obtain ⟨phase, rfl, deadline, rest, head, due⟩ := (timesOut_iff k).mp out
  simp only [step, phase, head, if_neg (Int.not_lt.mpr due)]

/-- A pair times out only after a whole timeout in which nothing has begun that moved anything: what
began earlier has pushed back the deadlines of both of its links. That is so as long as the readings
of the clock leave room for `timeout_`. -/
theorem live_tunnel_kept {t : Timed W} (reach : Timed.Reachable k opt t)
    (fits : Clock.Fits t.state.clock t.state.loop.timeout) :
    (∀ h now, t.state.timesOut k = some (h, now) →
      (∃ b ∈ t.began, b.1 = h.1) ∧
      ∀ b ∈ t.began, b.1 = h.1 → b.2 + t.state.loop.timeout.1.toInt ≤ now) ∧
    ((∀ why, t.state.phase ≠ .stopped why) → ∀ e ∈ t.state.loop.expire, ∀ b ∈ t.began,
      b.1 = e.1.1 → b.2 + t.state.loop.timeout.1.toInt ≤ e.2) := by
  obtain ⟨⟨temps, safe⟩, onTime⟩ := onTime_of_reachable k reach
  refine ⟨?_, fun running e member b began own =>
    ((onTime running).pushed e member b began own).late fits⟩
  intro h now out
  obtain ⟨phase, _, deadline, rest, head, due⟩ := (timesOut_iff k).mp out
  have onTime := onTime (by simp [phase])
  have member : (h, deadline) ∈ t.state.loop.expire := by
    rw [head]
    exact List.mem_cons_self
  refine ⟨onTime.made h.1 (safe.known _ member), ?_⟩
  intro b began own
  exact Int.le_trans ((onTime.pushed _ member b began own).late fits) due

/-- A pair that has been quiet for too long since two bytes were moved. -/
def quiet : Timed Bytes :=
  (Runs.replay (Timed.step eager onePage)
    { state := { loop := { timeout := sixty }, clock := 0, world := [65, 66] } }
    [.acts (.wait [.popFunc]), .acts (.dispatch 0 true), .acts (.dispatch 0 true), .acts .expire,
      .acts (.wait [.io 0 .client EPOLLIN]), .acts (.dispatch 5 true), .acts (.dispatch 0 true),
      .passes 100]).get (by decide +kernel)

theorem quiet_reachable : Timed.Reachable eager onePage quiet :=
  Runs.replay_reachable _ (.start ⟨⟨_, _, _, rfl⟩, rfl⟩) (Option.some_get _).symm

theorem live_tunnel_kept_quiet : quiet.began = [(0, 0), (0, 3)] ∧
    ∀ b ∈ quiet.began, b.1 = 0 → b.2 + quiet.state.loop.timeout.1.toInt ≤ 106 :=
  ⟨by decide +kernel,
    ((live_tunnel_kept eager quiet_reachable (by decide +kernel)).1 (0, .client) 106
      (by decide +kernel)).2⟩

/-- The timeout is the largest one, and the clock reads 1 ns when `New` begins: the deadlines of
both links wrap around. -/
def cut : Timed Bytes :=
  (Runs.replay (Timed.step eager onePage)
    { state := { loop := { timeout := ⟨9223372036854775807, by decide⟩ }, clock := 1
                 world := [65, 66] } }
    [.acts (.wait [.popFunc]), .acts (.dispatch 0 true), .acts (.dispatch 0 true)]).get
      (by decide +kernel)

theorem cut_reachable : Timed.Reachable eager onePage cut :=
  Runs.replay_reachable _ (.start ⟨⟨_, _, _, rfl⟩, rfl⟩) (Option.some_get _).symm

/-- `OnTimeout` is called 3 ns after `New` began. -/
theorem cut_early : ∃ t : Timed Bytes, Timed.Reachable eager onePage t ∧
    t.state.timesOut eager = some ((0, .client), 4) ∧ (0, 1) ∈ t.began ∧
    ¬ 1 + t.state.loop.timeout.1.toInt ≤ 4 :=
  ⟨cut, cut_reachable, by decide +kernel, by decide +kernel, by decide +kernel⟩

end Hcproxy.Forwarder
