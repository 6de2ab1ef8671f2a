import Hcproxy.ThreadPoolWakeups
import Mathlib.Data.List.Nodup
import Mathlib.Data.List.ReduceOption
import Mathlib.Data.List.Range

set_option autoImplicit false

namespace Hcproxy.ThreadPool

variable {F : Type}

/-- A function that a worker took, the reading of the clock that it was taken at, and what was
queued at that moment. -/
structure Start (F : Type) where
  work : Work F
  worker : ℕ
  now : ℕ
  queue : List (Work F)

/-- A pool with its history: the functions in the order in which `Schedule` queued them, the one
that each worker has in its hands, those that were taken and those that have returned. -/
structure Tracked (F : Type) where
  pool : State F
  scheduled : List (Work F) := []
  hands : List (Option (Work F))
  starts : List (Start F) := []
  finished : List (Work F) := []

/-- The function that a worker has taken and not finished. -/
def Worker.function : Worker F → Option F
  | .notifying f | .running f => some f
  | _ => none

/-- The history of a step that has led to `pool`. -/
def Tracked.record (s : Tracked F) (pool : State F) : Action F → Tracked F
  | .lockScheduler i =>
    match s.pool.schedulers[i]? with
    | some (.locking t f) =>
      { s with pool, scheduled := s.scheduled ++ [⟨t, s.pool.lastIdx + 1, f⟩] }
    | _ => { s with pool }
  | .lockWorker j =>
    match s.pool.work.head?, pool.workers[j]?.bind Worker.function with
    | some top, some _ =>
      { s with
        pool
        hands := s.hands.set j (some top)
        starts := s.starts ++ [⟨top, j, s.pool.clock, s.pool.work⟩] }
    | _, _ => { s with pool }
  | .finish j =>
    match s.hands[j]? with
    | some (some w) => { s with pool, hands := s.hands.set j none, finished := s.finished ++ [w] }
    | _ => { s with pool }
  | _ => { s with pool }

def track (s : Tracked F) (a : Action F) : Option (Tracked F) :=
  (step s.pool a).map fun pool => s.record pool a

def InitTracked (numThreads : ℕ) (s : Tracked F) : Prop :=
  ∃ pool, Init numThreads pool ∧ s = { pool, hands := List.replicate numThreads none }

def ReachableTracked (numThreads : ℕ) : Tracked F → Prop :=
  Runs.Reachable (InitTracked numThreads) (Runs.Moves track Runs.always)

@[simp] theorem record_pool (s : Tracked F) (pool : State F) (a : Action F) :
    (s.record pool a).pool = pool := by
  unfold Tracked.record
  repeat' split
  all_goals rfl

/-- Keeping a history does not restrict a pool. -/
theorem exists_tracked {numThreads : ℕ} {s : State F} (reach : Reachable numThreads s) :
    ∃ t, ReachableTracked numThreads t ∧ t.pool = s := by
  induction reach with
  | start initial => exact ⟨_, .start ⟨_, initial, rfl⟩, rfl⟩
  | move before moved ih =>
      obtain ⟨t, reach, rfl⟩ := ih
      obtain ⟨a, allowed, stepped⟩ := moved
      exact ⟨_, .move reach ⟨a, allowed, by rw [track, stepped]; rfl⟩, record_pool ..⟩

/-- The element that comes first in `work_`. -/
def Work.Before (w v : Work F) : Prop := w.t < v.t ∨ w.t = v.t ∧ w.idx < v.idx

/-- What the history of a pool promises to the callers of `Schedule`. -/
structure Orderly (s : Tracked F) : Prop where
  indices : s.scheduled.map Work.idx = List.range' 1 s.pool.lastIdx
  ordered : Ordered s.pool.work
  functions : s.hands.map (Option.map Work.f) = s.pool.workers.map Worker.function
  places : s.scheduled.Perm (s.pool.work ++ (s.hands.reduceOption ++ s.finished))
  started : (s.starts.map Start.work).Perm (s.hands.reduceOption ++ s.finished)
  due : ∀ x ∈ s.starts, x.work.t ≤ x.now
  least : ∀ x ∈ s.starts, x.work ∈ x.queue ∧ ∀ v ∈ x.queue, v ≠ x.work → x.work.Before v
  inOrder : s.starts.Pairwise fun x y => x.work.t = y.work.t → x.work.idx < y.work.idx
  later : ∀ x ∈ s.starts, ∀ v ∈ s.pool.work, x.work.t = v.t → x.work.idx < v.idx

theorem push_perm (w : Work F) (work : List (Work F)) : (push w work).Perm (w :: work) := by
  induction work with
  | nil => exact .refl _
  | cons head rest ih =>
      unfold push
      split
      · exact .refl _
      · exact (ih.cons head).trans (.swap w head rest)

section Hands

variable {α : Type} {hands : List (Option α)} {j : ℕ} {x : α}

/-- A worker gives up what it has in its hands. -/
theorem reduceOption_give (found : hands[j]? = some (some x)) :
    hands.reduceOption.Perm (x :: (hands.set j none).reduceOption) := by
  induction hands generalizing j with
  | nil => simp at found
  | cons head rest ih =>
      cases j with
      | zero =>
          simp only [List.getElem?_cons_zero, Option.some.injEq] at found
          subst found
          simp
      | succ j =>
          have tail := ih found
          cases head with
          | none => simpa using tail
          | some y =>
              rw [List.set_cons_succ, List.reduceOption_cons_of_some,
                List.reduceOption_cons_of_some]
              exact (tail.cons y).trans (.swap x y _)

/-- A worker takes something into its empty hands. -/
theorem reduceOption_take (found : hands[j]? = some none) :
    (hands.set j (some x)).reduceOption.Perm (x :: hands.reduceOption) := by
  obtain ⟨inside, empty⟩ := List.getElem?_eq_some_iff.mp found
  have given := @reduceOption_give _ (hands.set j (some x)) j x (by simp [inside])
  rwa [List.set_set, ← empty, List.set_getElem_self] at given

end Hands

/-- Which functions are in the hands of the workers does not depend on who waits for what. -/
theorem functions_set {workers : List (Worker F)} {j : ℕ} {w y : Worker F}
    (found : workers[j]? = some w) (same : y.function = w.function) :
    (workers.set j y).map Worker.function = workers.map Worker.function := by
  obtain ⟨inside, rfl⟩ := List.getElem?_eq_some_iff.mp found
  rw [List.map_set, same, ← List.getElem_map Worker.function, List.set_getElem_self]
  simpa using inside

theorem function_wake {wake : CondVar} {w y : Worker F} (woke : w.wake wake = some y) :
    y.function = w.function := by
  cases wake <;> cases w <;> simp [Worker.wake] at woke <;> subst woke <;> rfl

theorem functions_notifyOne {wake : CondVar} {target : Option ℕ} {workers after : List (Worker F)}
    (notified : notifyOne wake target workers = some after) :
    after.map Worker.function = workers.map Worker.function := by
  unfold notifyOne at notified
  split at notified
  · obtain ⟨y, woke, rfl⟩ := Option.map_eq_some_iff.mp notified
    obtain ⟨w, found, woke⟩ := Option.bind_eq_some_iff.mp woke
    exact functions_set found (function_wake woke)
  · split at notified
    · cases notified
      rfl
    · cases notified

theorem functions_notifyAll (workers : List (Worker F)) :
    (notifyAll workers).map Worker.function = workers.map Worker.function := by
  rw [notifyAll, List.map_map]
  apply List.map_congr_left
  intro w _
  cases w <;> rfl

/-- What a thread that holds `mutex_` in `Next` has done to the queue when it gives it up. -/
inductive Took (s : State F) (after : Worker F) (t : State F) : Prop
  | nothing (function : after.function = none) (work : t.work = s.work)
    (lastIdx : t.lastIdx = s.lastIdx)
  | first {top : Work F} {rest : List (Work F)} (work : s.work = top :: rest)
    (due : top.t ≤ s.clock) (function : after.function = some top.f) (left : t.work = rest)
    (lastIdx : t.lastIdx = s.lastIdx)

theorem next_took (s : State F) : Took s (next s).1 (next s).2 := by
  unfold next
  split
  · exact .nothing rfl rfl rfl
  · split
    · exact .nothing rfl rfl rfl
    · rename_i top rest work
      split
      · rename_i due
        refine .first work due ?_ rfl rfl
        split <;> rfl
      · split
        · exact .nothing rfl rfl rfl
        · exact .nothing rfl rfl rfl

theorem acquire_took {s : State F} {w : Worker F} {r : Worker F × State F}
    (acquired : acquire s w = some r) : w.function = none ∧ Took s r.1 r.2 := by
  cases w with
  | locking =>
      cases acquired
      exact ⟨rfl, next_took s⟩
  | woken =>
      cases acquired
      exact ⟨rfl, next_took s⟩
  | sleeperWoken =>
      refine ⟨rfl, ?_⟩
      simp only [acquire, wakeSleeper, Option.some.injEq] at acquired
      split at acquired
      · cases acquired
        cases next_took { s with haveSleeper := false } with
        | nothing function work lastIdx => exact .nothing function work lastIdx
        | first work due function left lastIdx => exact .first work due function left lastIdx
      · cases acquired
        exact .nothing rfl rfl rfl
  | waiting => cases acquired
  | sleeping deadline => cases acquired
  | notifying f => cases acquired
  | running f => cases acquired
  | checkFailed => cases acquired
  | exited => cases acquired

theorem Ordered.before {top v : Work F} {rest : List (Work F)} (ordered : Ordered (top :: rest))
    (member : v ∈ rest) (different : v.idx ≠ top.idx) : top.Before v := by
  have notLess := (List.pairwise_cons.mp ordered).1 v member
  have := (Work.lt_iff top v).not.mp (by simp [notLess])
  unfold Work.Before
  omega

namespace Orderly

variable {s : Tracked F}

/-- A step that moves no function. -/
theorem of_same (orderly : Orderly s) {pool : State F} (work : pool.work = s.pool.work)
    (lastIdx : pool.lastIdx = s.pool.lastIdx)
    (functions : pool.workers.map Worker.function = s.pool.workers.map Worker.function) :
    Orderly { s with pool } := by
  refine ⟨?_, ?_, ?_, ?_, orderly.started, orderly.due, orderly.least, orderly.inOrder, ?_⟩
  · rw [lastIdx]
    exact orderly.indices
  · rw [work]
    exact orderly.ordered
  · rw [functions]
    exact orderly.functions
  · rw [work]
    exact orderly.places
  · rw [work]
    exact orderly.later

/-- No two functions were queued with the same index. -/
theorem nodup (orderly : Orderly s) : (s.scheduled.map Work.idx).Nodup := by
  rw [orderly.indices]
  exact List.nodup_range'

theorem nodup_places (orderly : Orderly s) :
    ((s.pool.work ++ (s.hands.reduceOption ++ s.finished)).map Work.idx).Nodup :=
  ((orderly.places.map Work.idx).nodup_iff).mp orderly.nodup

/-- The indices that have been given out. -/
theorem idx_le (orderly : Orderly s) {w : Work F} (member : w ∈ s.scheduled) :
    w.idx ≤ s.pool.lastIdx := by
  have index : w.idx ∈ s.scheduled.map Work.idx := List.mem_map_of_mem member
  rw [orderly.indices, List.mem_range'_1] at index
  omega

theorem scheduled_of_started (orderly : Orderly s) {x : Start F} (member : x ∈ s.starts) :
    x.work ∈ s.scheduled := by
  have placed : x.work ∈ s.hands.reduceOption ++ s.finished :=
    orderly.started.mem_iff.mp (List.mem_map_of_mem member)
  exact orderly.places.mem_iff.mpr (List.mem_append_right _ placed)

theorem schedules (orderly : Orderly s) (t : ℤ) (f : F) {pool : State F}
    (work : pool.work = push ⟨t, s.pool.lastIdx + 1, f⟩ s.pool.work)
    (lastIdx : pool.lastIdx = s.pool.lastIdx + 1) (workers : pool.workers = s.pool.workers) :
    Orderly { s with pool, scheduled := s.scheduled ++ [⟨t, s.pool.lastIdx + 1, f⟩] } := by
  refine ⟨?_, ?_, ?_, ?_, orderly.started, orderly.due, orderly.least, orderly.inOrder, ?_⟩
  · rw [List.map_append, orderly.indices, lastIdx, List.range'_1_concat, Nat.add_comm 1]
    rfl
  · rw [work]
    exact push_ordered orderly.ordered
  · rw [workers]
    exact orderly.functions
  · rw [work]
    refine (List.perm_append_singleton _ _).trans ?_
    refine ((orderly.places.cons _)).trans ?_
    rw [← List.cons_append]
    exact (push_perm _ _).symm.append_right _
  · intro x member v queued sameTime
    dsimp only at queued
    rw [work] at queued
    rcases mem_push.mp queued with rfl | queued
    · have := orderly.idx_le (orderly.scheduled_of_started member)
      dsimp only
      omega
    · exact orderly.later x member v queued sameTime

theorem takes (orderly : Orderly s) {j : ℕ} {top : Work F} {rest : List (Work F)} {w y : Worker F}
    {pool : State F} (found : s.pool.workers[j]? = some w) (idle : w.function = none)
    (work : s.pool.work = top :: rest) (due : top.t ≤ s.pool.clock)
    (function : y.function = some top.f) (left : pool.work = rest)
    (lastIdx : pool.lastIdx = s.pool.lastIdx) (workers : pool.workers = s.pool.workers.set j y) :
    Orderly { s with
      pool
      hands := s.hands.set j (some top)
      starts := s.starts ++ [⟨top, j, s.pool.clock, s.pool.work⟩] } := by
  have ordered := orderly.ordered
  have distinct := orderly.nodup_places
  rw [work] at ordered distinct
  have empty : s.hands[j]? = some none := by
    have same := congrArg (·[j]?) orderly.functions
    simp only [List.getElem?_map, found, Option.map_some, idle] at same
    obtain ⟨h, held, none⟩ := Option.map_eq_some_iff.mp same
    rw [held, Option.map_eq_none_iff.mp none]
  have taken := reduceOption_take (x := top) empty
  have before : ∀ v ∈ rest, top.Before v := by
    intro v member
    refine ordered.before member ?_
    have notThere := (List.nodup_cons.mp distinct).1
    intro same
    refine notThere ?_
    rw [← same]
    exact List.mem_map_of_mem (List.mem_append_left _ member)
  refine ⟨?_, ?_, ?_, ?_, ?_, ?_, ?_, ?_, ?_⟩
  · rw [lastIdx]
    exact orderly.indices
  · rw [left]
    exact ordered.rest
  · rw [workers, List.map_set, List.map_set, orderly.functions, function]
    rfl
  · refine orderly.places.trans ?_
    rw [work, left]
    refine (List.perm_middle.symm).trans ?_
    refine List.Perm.append_left rest ?_
    exact (taken.append_right s.finished).symm
  · rw [List.map_append]
    refine (List.perm_append_singleton _ _).trans ?_
    exact (orderly.started.cons top).trans (taken.append_right s.finished).symm
  · intro x member
    rcases List.mem_append.mp member with member | member
    · exact orderly.due x member
    · rw [List.mem_singleton.mp member]
      exact due
  · intro x member
    rcases List.mem_append.mp member with member | member
    · exact orderly.least x member
    · rw [List.mem_singleton.mp member]
      dsimp only
      rw [work]
      refine ⟨List.mem_cons_self, ?_⟩
      intro v queued different
      rcases List.mem_cons.mp queued with same | queued
      · exact absurd same different
      · exact before v queued
  · refine List.pairwise_append.mpr ⟨orderly.inOrder, List.pairwise_singleton _ _, ?_⟩
    intro x member y last sameTime
    rw [List.mem_singleton.mp last] at sameTime ⊢
    exact orderly.later x member top (by rw [work]; exact List.mem_cons_self) sameTime
  · intro x member v queued sameTime
    dsimp only at queued
    rw [left] at queued
    rcases List.mem_append.mp member with member | member
    · exact orderly.later x member v (by rw [work]; exact List.mem_cons_of_mem _ queued) sameTime
    · rw [List.mem_singleton.mp member] at sameTime ⊢
      have := before v queued
      unfold Work.Before at this
      dsimp only at sameTime ⊢
      omega

theorem finishes (orderly : Orderly s) {j : ℕ} {y : Worker F} {work : Work F} {pool : State F}
    (held : s.hands[j]? = some (some work)) (done : y.function = none)
    (queue : pool.work = s.pool.work) (lastIdx : pool.lastIdx = s.pool.lastIdx)
    (workers : pool.workers = s.pool.workers.set j y) :
    Orderly { s with
      pool, hands := s.hands.set j none, finished := s.finished ++ [work] } := by
  have given := reduceOption_give held
  have moved : (s.hands.reduceOption ++ s.finished).Perm
      ((s.hands.set j none).reduceOption ++ (s.finished ++ [work])) := by
    refine (given.append_right s.finished).trans ?_
    rw [← List.append_assoc]
    exact (List.perm_append_singleton _ _).symm
  refine ⟨?_, ?_, ?_, ?_, ?_, orderly.due, orderly.least, orderly.inOrder, ?_⟩
  · rw [lastIdx]
    exact orderly.indices
  · rw [queue]
    exact orderly.ordered
  · rw [workers, List.map_set, List.map_set, orderly.functions, done]
    rfl
  · rw [queue]
    exact orderly.places.trans (moved.append_left _)
  · exact orderly.started.trans moved
  · rw [queue]
    exact orderly.later

end Orderly

theorem init_orderly {numThreads : ℕ} {s : Tracked F} (initial : InitTracked numThreads s) :
    Orderly s := by
  obtain ⟨_, ⟨clock, rfl⟩, rfl⟩ := initial
  refine ⟨rfl, List.Pairwise.nil, ?_, ?_, ?_, ?_, ?_, List.Pairwise.nil, ?_⟩
  · simp [Worker.function]
  · simp
  · simp
  all_goals simp

theorem track_orderly {s t : Tracked F} {a : Action F} (orderly : Orderly s)
    (tracked : track s a = some t) : Orderly t := by
  obtain ⟨pool, stepped, rfl⟩ := Option.map_eq_some_iff.mp tracked
  cases moved_of_step stepped with
  | tick | call | destroy => exact orderly.of_same rfl rfl rfl
  | @lockScheduler i time f found =>
      simp only [Tracked.record, found]
      exact orderly.schedules time f rfl rfl rfl
  | notifyScheduler found notified | destroyNotifySleeper before notified =>
      exact orderly.of_same rfl rfl (functions_notifyOne notified)
  | lockWorker found acquired =>
      obtain ⟨idle, took⟩ := acquire_took acquired
      have inside := (List.getElem?_eq_some_iff.mp found).1
      simp only [Tracked.record, List.getElem?_set_self inside, Option.bind_some]
      cases took with
      | nothing function work lastIdx =>
          rw [function]
          cases head : s.pool.work.head? <;>
            exact orderly.of_same work lastIdx (functions_set found (function.trans idle.symm))
      | first work due function rest lastIdx =>
          rw [function, (by rw [work]; rfl : s.pool.work.head? = some _)]
          refine orderly.takes found idle work due function ?_ ?_ ?_
          · exact rest
          · exact lastIdx
          · rfl
  | notifyWorker found notified =>
      refine orderly.of_same rfl rfl ((functions_notifyOne notified).trans ?_)
      exact functions_set found rfl
  | timeout found | waits found | sleeps found =>
      exact orderly.of_same rfl rfl (functions_set found rfl)
  | @finish j f found =>
      have same := congrArg (·[j]?) orderly.functions
      simp only [List.getElem?_map, found, Option.map_some, Worker.function] at same
      obtain ⟨h, held, some⟩ := Option.map_eq_some_iff.mp same
      obtain ⟨work, rfl, _⟩ := Option.map_eq_some_iff.mp some
      simp only [Tracked.record, held]
      exact orderly.finishes held rfl rfl rfl rfl
  | destroyNotifyAll => exact orderly.of_same rfl rfl (functions_notifyAll _)

/-- Every function that `Schedule` has queued is queued, in the hands of one worker or finished,
and is in one of these places only. It is taken when it is due and it comes first, so functions
for the same time are taken in the order in which they were queued. -/
theorem orderly_of_reachable {numThreads : ℕ} {s : Tracked F}
    (reach : ReachableTracked numThreads s) : Orderly s ∧ s.scheduled.Nodup := by
  have orderly : Orderly s := by
    refine Runs.Reachable.invariant (I := Orderly) (fun _ => init_orderly) ?_ reach
    rintro s t orderly ⟨a, _, tracked⟩
    exact track_orderly orderly tracked
  exact ⟨orderly, List.Nodup.of_map _ orderly.nodup⟩

/-- Two functions for the same time, of which one worker takes the first. -/
def taking : Tracked ℕ where
  pool :=
    { clock := 7, lastIdx := 2, work := [⟨5, 2, 11⟩], workers := [.notifying 10]
      schedulers := [.done, .done] }
  scheduled := [⟨5, 1, 10⟩, ⟨5, 2, 11⟩]
  hands := [some ⟨5, 1, 10⟩]
  starts := [⟨⟨5, 1, 10⟩, 0, 7, [⟨5, 1, 10⟩, ⟨5, 2, 11⟩]⟩]

theorem taking_reachable : ReachableTracked 1 taking :=
  Runs.replay_reachable
    [.call 5 10, .lockScheduler 0, .call 5 11, .lockScheduler 1, .notifyScheduler 0 none,
      .tick 7, .lockWorker 0]
    (.start ⟨_, ⟨0, rfl⟩, rfl⟩) rfl

theorem orderly_of_reachable_taking : Orderly taking ∧ taking.scheduled.Nodup :=
  orderly_of_reachable taking_reachable

end Hcproxy.ThreadPool
