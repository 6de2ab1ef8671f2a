import Hcproxy.ThreadPoolOrder

set_option autoImplicit false

namespace Hcproxy.ThreadPool

open Threads

variable {F : Type}

/-- The worker that an action is a step of. Waking up is not a step of the blocked worker. -/
def Action.worker : Action F → Option ℕ
  | .lockWorker j | .notifyWorker j _ | .finish j => some j
  | _ => none

/-- How many steps a worker takes until it leaves `Loop`, if it finds `exit_` set. -/
def Worker.remaining : Worker F → ℕ
  | .notifying _ => 3
  | .running _ => 2
  | .locking | .woken | .sleeperWoken => 1
  | _ => 0

/-- A step that a worker takes by itself. -/
inductive Own (s : State F) : Worker F → Worker F → Prop
  | locks {w after : Worker F} {t : State F} (acquired : acquire s w = some (after, t)) :
      Own s w after
  | notifies {f : F} : Own s (.notifying f) (.running f)
  | finishes {f : F} : Own s (.running f) .locking

/-- The worker stayed where it was or was woken. -/
def Idle (w after : Worker F) : Prop := after = w ∨ ∃ wake, w.wake wake = some after

section Step

variable {s t : State F} {a : Action F} {k : ℕ} {after : Worker F}

theorem notifyOne_idle {wake : CondVar} {target : Option ℕ} {workers workers' : List (Worker F)}
    (notified : notifyOne wake target workers = some workers')
    (found : workers'[k]? = some after) : ∃ w, workers[k]? = some w ∧ Idle w after := by
  rcases notifyOne_cases notified with ⟨j, w, y, before, woke, rfl⟩ | ⟨rfl, -⟩
  · rw [List.getElem?_set] at found
    split at found
    · rename_i same
      subst same
      split at found
      · cases found
        exact ⟨w, before, Or.inr ⟨wake, woke⟩⟩
      · cases found
    · exact ⟨after, found, Or.inl rfl⟩
  · exact ⟨after, found, Or.inl rfl⟩

theorem notifyAll_idle {workers : List (Worker F)} (found : (notifyAll workers)[k]? = some after) :
    ∃ w, workers[k]? = some w ∧ Idle w after := by
  rw [notifyAll, List.getElem?_map] at found
  obtain ⟨w, before, moved⟩ := Option.map_eq_some_iff.mp found
  refine ⟨w, before, ?_⟩
  cases woke : w.wake .cv with
  | none =>
      rw [woke] at moved
      exact Or.inl moved.symm
  | some y =>
      rw [woke] at moved
      cases moved
      exact Or.inr ⟨.cv, woke⟩

/-- What a step does to one worker: its own step, or at most a wake-up. -/
theorem step_worker (stepped : step s a = some t) (found : t.workers[k]? = some after) :
    ∃ w, s.workers[k]? = some w ∧
      (a.worker = some k ∧ Own s w after ∨ a.worker ≠ some k ∧ Idle w after) := by
  have moved : ∀ {j : ℕ} {w y : Worker F}, s.workers[j]? = some w →
      (s.workers.set j y)[k]? = some after →
      k = j ∧ s.workers[k]? = some w ∧ after = y ∨ k ≠ j ∧ s.workers[k]? = some after := by
    intro j w y before set
    rw [List.getElem?_set] at set
    split at set
    · rename_i same
      subst same
      split at set
      · exact Or.inl ⟨rfl, before, (Option.some.inj set).symm⟩
      · cases set
    · rename_i other
      exact Or.inr ⟨Ne.symm other, set⟩
  have still : ∀ {w : Worker F}, a.worker = none → s.workers[k]? = some w → Idle w after →
      ∃ w, s.workers[k]? = some w ∧
        (a.worker = some k ∧ Own s w after ∨ a.worker ≠ some k ∧ Idle w after) := by
    intro w nobody before idle
    exact ⟨w, before, Or.inr ⟨by simp [nobody], idle⟩⟩
  cases moved_of_step stepped with
  | tick | call | lockScheduler | destroy => exact still rfl found (Or.inl rfl)
  | notifyScheduler _ notified | destroyNotifySleeper _ notified =>
      obtain ⟨w, before, idle⟩ := notifyOne_idle notified found
      exact still rfl before idle
  | lockWorker before taken =>
      rcases moved before found with ⟨rfl, before, rfl⟩ | ⟨other, same⟩
      · exact ⟨_, before, Or.inl ⟨rfl, .locks taken⟩⟩
      · exact ⟨after, same, Or.inr ⟨by simp [Action.worker, Ne.symm other], Or.inl rfl⟩⟩
  | notifyWorker before notified =>
      obtain ⟨w, between, idle⟩ := notifyOne_idle notified found
      rw [List.getElem?_set] at between
      split at between
      · rename_i same
        subst same
        split at between
        · cases between
          refine ⟨_, before, Or.inl ⟨rfl, ?_⟩⟩
          rcases idle with rfl | ⟨wake, woke⟩
          · exact .notifies
          · cases wake <;> cases woke
        · cases between
      · rename_i other
        exact ⟨w, between, Or.inr ⟨by simp [Action.worker, other], idle⟩⟩
  | timeout before | sleeps before =>
      rcases moved before found with ⟨rfl, before, rfl⟩ | ⟨-, same⟩
      · exact still rfl before (Or.inr ⟨.sleeperCv, rfl⟩)
      · exact still rfl same (Or.inl rfl)
  | waits before =>
      rcases moved before found with ⟨rfl, before, rfl⟩ | ⟨-, same⟩
      · exact still rfl before (Or.inr ⟨.cv, rfl⟩)
      · exact still rfl same (Or.inl rfl)
  | finish before =>
      rcases moved before found with ⟨rfl, before, rfl⟩ | ⟨other, same⟩
      · exact ⟨_, before, Or.inl ⟨rfl, .finishes⟩⟩
      · exact ⟨after, same, Or.inr ⟨by simp [Action.worker, Ne.symm other], Or.inl rfl⟩⟩
  | destroyNotifyAll =>
      obtain ⟨w, before, idle⟩ := notifyAll_idle found
      exact still rfl before idle

theorem next_exits (exit : s.exit = true) : next s = (.exited, s) := by
  simp [next, exit]

theorem next_flags (s : State F) : (next s).2.exit = s.exit ∧ (next s).2.destructor = s.destructor := by
  have result := next_spec s
  generalize next s = moved at result
  cases result <;> exact ⟨rfl, rfl⟩

theorem next_exited (left : (next s).1 = .exited) : s.exit = true := by
  have result := next_spec s
  generalize next s = moved at result left
  cases result with
  | exits exit => exact exit
  | empty | passesOn | takes | defers | sleeps => cases left

theorem next_checked (s : State F) : (next s).1 ≠ .checkFailed := by
  have result := next_spec s
  generalize next s = moved at result
  cases result <;> exact fun same => by cases same

section Acquire

variable {w : Worker F}

theorem acquire_flags (acquired : acquire s w = some (after, t)) :
    t.exit = s.exit ∧ t.destructor = s.destructor := by
  cases w with
  | locking | woken =>
      have flags := next_flags s
      rwa [Option.some.inj acquired] at flags
  | sleeperWoken =>
      simp only [acquire, wakeSleeper] at acquired
      split at acquired
      · have flags := next_flags { s with haveSleeper := false }
        rwa [Option.some.inj acquired] at flags
      · cases acquired
        exact ⟨rfl, rfl⟩
  | waiting | sleeping | notifying | running | checkFailed | exited => cases acquired

/-- After `exit_` is set a worker that acquires `mutex_` leaves the queue alone. -/
theorem acquire_exits (exit : s.exit = true) (acquired : acquire s w = some (after, t)) :
    t.work = s.work ∧ (after = .exited ∨ after = .checkFailed) := by
  cases w with
  | locking | woken =>
      simp only [acquire, next_exits exit] at acquired
      cases acquired
      exact ⟨rfl, Or.inl rfl⟩
  | sleeperWoken =>
      simp only [acquire, wakeSleeper] at acquired
      split at acquired
      · rw [next_exits (s := { s with haveSleeper := false }) exit] at acquired
        cases acquired
        exact ⟨rfl, Or.inl rfl⟩
      · cases acquired
        exact ⟨rfl, Or.inr rfl⟩
  | waiting | sleeping | notifying | running | checkFailed | exited => cases acquired

theorem acquire_exited (acquired : acquire s w = some (.exited, t)) : s.exit = true := by
  cases w with
  | locking | woken =>
      apply next_exited
      rw [Option.some.inj acquired]
  | sleeperWoken =>
      simp only [acquire, wakeSleeper] at acquired
      split at acquired
      · apply next_exited (s := { s with haveSleeper := false })
        rw [Option.some.inj acquired]
      · cases acquired
  | waiting | sleeping | notifying | running | checkFailed | exited => cases acquired

/-- `CHECK(have_sleeper_)` can fail only for a worker that slept while nobody was the sleeper. -/
theorem acquire_checkFailed (acquired : acquire s w = some (.checkFailed, t)) :
    w = .sleeperWoken ∧ s.haveSleeper = false := by
  cases w with
  | locking | woken =>
      apply absurd _ (next_checked s)
      rw [Option.some.inj acquired]
  | sleeperWoken =>
      simp only [acquire, wakeSleeper] at acquired
      split at acquired
      · apply absurd _ (next_checked { s with haveSleeper := false })
        rw [Option.some.inj acquired]
      · rename_i alone
        exact ⟨rfl, by simpa using alone⟩
  | waiting | sleeping | notifying | running | checkFailed | exited => cases acquired

end Acquire

/-- How far a step brings the destructor. -/
inductive Shuts (s t : State F) : Prop
  | same (exit : t.exit = s.exit) (destructor : t.destructor = s.destructor)
  | begins (before : s.destructor = .notStarted) (exit : t.exit = true)
      (destructor : t.destructor = .notifyingAll)
  | notifiesAll (before : s.destructor = .notifyingAll) (exit : t.exit = s.exit)
      (destructor : t.destructor = .notifyingSleeper) (workers : t.workers = notifyAll s.workers)
  | notifiesSleeper (target : Option ℕ) (before : s.destructor = .notifyingSleeper)
      (exit : t.exit = s.exit) (destructor : t.destructor = .joining)
      (workers : notifyOne .sleeperCv target s.workers = some t.workers)

/-- What a step does to the rest of the pool. After `exit_` is set the queue only grows. -/
theorem step_shuts (stepped : step s a = some t) :
    Shuts s t ∧ (s.exit = true → t.work = s.work ∨ ∃ w, t.work = push w s.work) := by
  cases moved_of_step stepped with
  | tick | call | notifyScheduler | notifyWorker | timeout | waits | sleeps | finish =>
      exact ⟨.same rfl rfl, fun _ => Or.inl rfl⟩
  | lockScheduler => exact ⟨.same rfl rfl, fun _ => Or.inr ⟨_, rfl⟩⟩
  | lockWorker found taken =>
      obtain ⟨exit, destructor⟩ := acquire_flags taken
      exact ⟨.same exit destructor, fun set => Or.inl (acquire_exits set taken).1⟩
  | destroy before => exact ⟨.begins before rfl rfl, fun _ => Or.inl rfl⟩
  | destroyNotifyAll before => exact ⟨.notifiesAll before rfl rfl rfl, fun _ => Or.inl rfl⟩
  | destroyNotifySleeper before notified =>
      exact ⟨.notifiesSleeper _ before rfl rfl notified, fun _ => Or.inl rfl⟩

end Step

/-- What keeps the shutdown from getting stuck: once the destructor has signalled a condition
variable nobody is blocked on it. -/
structure Shutdown (s : State F) : Prop where
  checked : .checkFailed ∉ s.workers
  left : .exited ∈ s.workers → s.exit = true
  started : s.exit = true ↔ s.destructor ≠ .notStarted
  signalled : s.destructor = .notifyingSleeper ∨ s.destructor = .joining → .waiting ∉ s.workers
  freed : s.destructor = .joining → ∀ d, .sleeping d ∉ s.workers

theorem init_shutdown {numThreads : ℕ} {s : State F} (initial : Init numThreads s) :
    Shutdown s := by
  obtain ⟨clock, rfl⟩ := initial
  refine ⟨?_, ?_, by simp, by simp, by simp⟩
  · simp
  · intro left
    simp at left

section Kept

variable {numThreads : ℕ} {s t : State F} {a : Action F}

theorem wake_blocked {wake : CondVar} {w after : Worker F} (woke : w.wake wake = some after) :
    after = .woken ∨ after = .sleeperWoken := by
  rcases wake_cases woke with ⟨-, -, rfl⟩ | ⟨-, -, rfl⟩
  · exact Or.inl rfl
  · exact Or.inr rfl

/-- A worker that finds `exit_` set does not block. -/
theorem not_blocked {w after : Worker F} (exit : s.exit = true) (own : Own s w after) :
    after ≠ .waiting ∧ ∀ d, after ≠ .sleeping d := by
  cases own with
  | locks acquired =>
      rcases (acquire_exits exit acquired).2 with rfl | rfl
      · exact ⟨nofun, nofun⟩
      · exact ⟨nofun, nofun⟩
  | notifies => exact ⟨nofun, nofun⟩
  | finishes => exact ⟨nofun, nofun⟩

/-- A worker that is blocked after a step with `exit_` set was blocked before. -/
theorem blocked_before {w : Worker F} (exit : s.exit = true) (stepped : step s a = some t)
    (blocked : w = .waiting ∨ ∃ d, w = .sleeping d) (member : w ∈ t.workers) : w ∈ s.workers := by
  obtain ⟨k, found⟩ := List.mem_iff_getElem?.mp member
  obtain ⟨v, before, ⟨-, own⟩ | ⟨-, rfl | ⟨wake, woke⟩⟩⟩ := step_worker stepped found
  · obtain ⟨notWaiting, notSleeping⟩ := not_blocked exit own
    rcases blocked with rfl | ⟨d, rfl⟩
    · exact absurd rfl notWaiting
    · exact absurd rfl (notSleeping d)
  · exact List.mem_of_getElem? before
  · rcases wake_blocked woke with rfl | rfl <;> rcases blocked with same | ⟨d, same⟩ <;> cases same

/-- `notify_all` leaves nobody waiting. -/
theorem notifyAll_waiting (workers : List (Worker F)) : .waiting ∉ notifyAll workers := by
  intro member
  obtain ⟨w, -, same⟩ := List.mem_map.mp member
  cases w <;> cases same

/-- `notify_one` on `sleeper_cv_` leaves nobody asleep, since only one worker can be. -/
theorem notifyOne_sleeping {target : Option ℕ} {workers : List (Worker F)}
    (inv : Inv numThreads none s) (notified : notifyOne .sleeperCv target s.workers = some workers)
    (d : ℤ) : .sleeping d ∉ workers := by
  intro member
  rcases notifyOne_cases notified with ⟨j, w, y, found, woke, rfl⟩ | ⟨rfl, nobody⟩
  · rcases wake_cases woke with ⟨same, -⟩ | ⟨-, ⟨e, rfl⟩, rfl⟩
    · cases same
    · have blocked : total Worker.blocked (s.workers.set j .sleeperWoken) + 1 =
          total Worker.blocked s.workers + 0 := total_set _ _ found
      have still : 1 ≤ total Worker.blocked (s.workers.set j .sleeperWoken) :=
        weight_le_total Worker.blocked member
      have both := total_add_le Worker.blocked_add_returns s.workers
      have sleeper := inv.sleeper
      have := Bool.toNat_le s.haveSleeper
      omega
  · cases nobody _ member

theorem step_shutdown (inv : Inv numThreads none s) (shut : Shutdown s)
    (stepped : step s a = some t) : Shutdown t := by
  have exit : s.exit = true → t.exit = true := by
    intro set
    cases (step_shuts stepped).1 with
    | same exit | notifiesAll _ exit | notifiesSleeper _ _ exit => rw [exit, set]
    | begins _ exit => exact exit
  have set : s.destructor ≠ .notStarted → s.exit = true := shut.started.mpr
  refine ⟨?_, ?_, ?_, ?_, ?_⟩
  · intro member
    obtain ⟨k, found⟩ := List.mem_iff_getElem?.mp member
    obtain ⟨w, before, ⟨-, own⟩ | ⟨-, rfl | ⟨wake, woke⟩⟩⟩ := step_worker stepped found
    · cases own with
      | locks acquired =>
          obtain ⟨rfl, alone⟩ := acquire_checkFailed acquired
          have one : 1 ≤ total Worker.sleeps s.workers :=
            weight_le_total Worker.sleeps (List.mem_of_getElem? before)
          have sleeper := inv.sleeper
          rw [alone, Bool.toNat_false] at sleeper
          omega
    · exact shut.checked (List.mem_of_getElem? before)
    · rcases wake_blocked woke with same | same <;> cases same
  · intro member
    obtain ⟨k, found⟩ := List.mem_iff_getElem?.mp member
    obtain ⟨w, before, ⟨-, own⟩ | ⟨-, rfl | ⟨wake, woke⟩⟩⟩ := step_worker stepped found
    · cases own with
      | locks acquired => exact exit (acquire_exited acquired)
    · exact exit (shut.left (List.mem_of_getElem? before))
    · rcases wake_blocked woke with same | same <;> cases same
  · cases (step_shuts stepped).1 with
    | same exit destructor =>
        rw [exit, destructor]
        exact shut.started
    | begins _ exit destructor => simp [exit, destructor]
    | notifiesAll before exit destructor => simp [exit, destructor, set, before]
    | notifiesSleeper _ before exit destructor => simp [exit, destructor, set, before]
  · intro signalled
    cases (step_shuts stepped).1 with
    | same _ destructor =>
        rw [destructor] at signalled
        have began : s.destructor ≠ .notStarted := by
          rcases signalled with now | now <;> simp [now]
        exact fun member =>
          shut.signalled signalled (blocked_before (set began) stepped (Or.inl rfl) member)
    | begins _ _ destructor => simp [destructor] at signalled
    | notifiesAll _ _ _ workers =>
        rw [workers]
        exact notifyAll_waiting _
    | notifiesSleeper _ before =>
        have began : s.destructor ≠ .notStarted := by simp [before]
        exact fun member =>
          shut.signalled (Or.inl before) (blocked_before (set began) stepped (Or.inl rfl) member)
  · intro joining d
    cases (step_shuts stepped).1 with
    | same _ destructor =>
        rw [destructor] at joining
        have began : s.destructor ≠ .notStarted := by simp [joining]
        exact fun member =>
          shut.freed joining d (blocked_before (set began) stepped (Or.inr ⟨d, rfl⟩) member)
    | begins _ _ destructor => simp [destructor] at joining
    | notifiesAll _ _ destructor => simp [destructor] at joining
    | notifiesSleeper _ _ _ _ notified => exact notifyOne_sleeping inv notified d

theorem reachable_shutdown (reach : Reachable numThreads s) : Shutdown s := by
  refine Runs.Reachable.strengthen (fun _ => reachable_inv) ?_ ?_ reach
  · intro s initial
    exact init_shutdown initial
  · rintro s t inv shut ⟨a, -, stepped⟩
    exact step_shutdown inv shut stepped

end Kept

section Joining

variable {numThreads : ℕ} {s t : State F} {a : Action F}

theorem sublist_push (w : Work F) (work : List (Work F)) : work.Sublist (push w work) := by
  induction work with
  | nil => exact List.nil_sublist _
  | cons head rest ih =>
      unfold push
      split
      · exact List.sublist_cons_self _ _
      · exact ih.cons_cons head

/-- After `exit_` is set a worker has no function in its hands that it did not have before. -/
theorem own_function {w after : Worker F} (exit : s.exit = true) (own : Own s w after) {f : F}
    (holds : after.function = some f) : w.function = some f := by
  cases own with
  | locks acquired =>
      rcases (acquire_exits exit acquired).2 with rfl | rfl <;> cases holds
  | notifies => exact holds
  | finishes => cases holds

theorem replay_exit {actions : List (Action F)} (exit : s.exit = true)
    (ran : Runs.replay step s actions = some t) :
    t.exit = true ∧ s.work.Sublist t.work ∧
      ∀ (k : ℕ) (f : F), t.workers[k]?.bind Worker.function = some f →
        s.workers[k]?.bind Worker.function = some f := by
  induction actions generalizing s with
  | nil =>
      cases ran
      exact ⟨exit, List.Sublist.refl _, fun _ _ same => same⟩
  | cons a rest ih =>
      obtain ⟨u, stepped, ran⟩ := Option.bind_eq_some_iff.mp ran
      obtain ⟨shuts, grows⟩ := step_shuts stepped
      have still : u.exit = true := by
        cases shuts with
        | same exit' | notifiesAll _ exit' | notifiesSleeper _ _ exit' => rw [exit', exit]
        | begins _ exit' => exact exit'
      obtain ⟨last, sublist, holds⟩ := ih still ran
      refine ⟨last, ?_, ?_⟩
      · rcases grows exit with same | ⟨w, pushed⟩
        · rwa [same] at sublist
        · rw [pushed] at sublist
          exact (sublist_push w s.work).trans sublist
      · intro k f held
        obtain ⟨after, found, function⟩ := Option.bind_eq_some_iff.mp (holds k f held)
        apply Option.bind_eq_some_iff.mpr
        obtain ⟨w, before, ⟨-, own⟩ | ⟨-, rfl | ⟨wake, woke⟩⟩⟩ := step_worker stepped found
        · exact ⟨w, before, own_function exit own function⟩
        · exact ⟨after, before, function⟩
        · exact ⟨w, before, by rw [← function_wake woke, function]⟩

theorem acquire_remaining {w after : Worker F} (acquired : acquire s w = some (after, t)) :
    w.remaining = 1 := by
  cases w with
  | locking | woken | sleeperWoken => rfl
  | waiting | sleeping | notifying | running | checkFailed | exited => cases acquired

theorem own_remaining {w after : Worker F} (exit : s.exit = true) (own : Own s w after) :
    1 + after.remaining = w.remaining := by
  cases own with
  | locks acquired =>
      rw [acquire_remaining acquired]
      rcases (acquire_exits exit acquired).2 with rfl | rfl <;> rfl
  | notifies => rfl
  | finishes => rfl

/-- Every own step of a worker brings it closer to the end of `Loop`, and nothing else matters. -/
theorem step_remaining {k : ℕ} {w : Worker F} (reach : Reachable numThreads s)
    (joining : s.destructor = .joining) (stepped : step s a = some t)
    (before : s.workers[k]? = some w) :
    ∃ after, t.workers[k]? = some after ∧
      (if a.worker = some k then 1 else 0) + after.remaining = w.remaining := by
  have shut := reachable_shutdown reach
  have exit : s.exit = true := shut.started.mpr (by simp [joining])
  have length : t.workers.length = s.workers.length := by
    have inv := reachable_inv reach
    rw [inv.threads, (step_kept a inv stepped).threads]
  obtain ⟨inside, -⟩ := List.getElem?_eq_some_iff.mp before
  have found : t.workers[k]? = some t.workers[k] := List.getElem?_eq_getElem (by omega)
  refine ⟨t.workers[k], found, ?_⟩
  obtain ⟨v, same, ⟨mine, own⟩ | ⟨other, stays | ⟨wake, woke⟩⟩⟩ := step_worker stepped found
  · rw [before] at same
    cases same
    rw [if_pos mine]
    exact own_remaining exit own
  · rw [before] at same
    cases same
    rw [if_neg other, stays, Nat.zero_add]
  · rcases wake_cases woke with ⟨-, rfl, -⟩ | ⟨-, ⟨d, rfl⟩, -⟩
    · exact absurd (List.mem_of_getElem? same) (shut.signalled (Or.inr joining))
    · exact absurd (List.mem_of_getElem? same) (shut.freed joining d)

/-- A worker that has not left `Loop` has a step to take. -/
theorem own_enabled {k : ℕ} {w : Worker F} (shut : Shutdown s) (joining : s.destructor = .joining)
    (found : s.workers[k]? = some w) :
    w = .exited ∨ ∃ a : Action F, a.worker = some k ∧ (step s a).isSome = true := by
  cases w with
  | locking | woken | sleeperWoken =>
      exact Or.inr ⟨.lockWorker k, rfl, by simp [step, found, acquire]⟩
  | waiting =>
      exact absurd (List.mem_of_getElem? found) (shut.signalled (Or.inr joining))
  | sleeping d => exact absurd (List.mem_of_getElem? found) (shut.freed joining d)
  | notifying f =>
      refine Or.inr ⟨.notifyWorker k none, rfl, ?_⟩
      have nobody : ∀ v ∈ s.workers.set k (.running f), v.wake .cv = none := by
        intro v member
        rcases mem_set member with rfl | member
        · rfl
        · cases v with
          | waiting => exact absurd member (shut.signalled (Or.inr joining))
          | _ => rfl
      have all : ((s.workers.set k (.running f)).all fun v => (v.wake .cv).isNone) = true := by
        simpa using nobody
      simp [step, found, notifyOne, all]
  | running f => exact Or.inr ⟨.finish k, rfl, by simp [step, found]⟩
  | checkFailed => exact absurd (List.mem_of_getElem? found) shut.checked
  | exited => exact Or.inl rfl

theorem step_joining (joining : s.destructor = .joining) (stepped : step s a = some t) :
    t.destructor = .joining := by
  cases (step_shuts stepped).1 with
  | same _ destructor => rw [destructor, joining]
  | begins before | notifiesAll before | notifiesSleeper _ before => simp [joining] at before

theorem replay_joining {actions : List (Action F)} (reach : Reachable numThreads s)
    (joining : s.destructor = .joining) (ran : Runs.replay step s actions = some t) :
    t.destructor = .joining ∧ ∀ (k : ℕ) (w : Worker F), s.workers[k]? = some w →
      ∃ after, t.workers[k]? = some after ∧
        actions.countP (fun a => a.worker = some k) + after.remaining = w.remaining := by
  induction actions generalizing s with
  | nil =>
      cases ran
      exact ⟨joining, fun k w found => ⟨w, found, by simp⟩⟩
  | cons a rest ih =>
      obtain ⟨u, stepped, ran⟩ := Option.bind_eq_some_iff.mp ran
      obtain ⟨still, later⟩ := ih (.move reach ⟨a, trivial, stepped⟩) (step_joining joining stepped) ran
      refine ⟨still, fun k w found => ?_⟩
      obtain ⟨v, between, first⟩ := step_remaining reach joining stepped found
      obtain ⟨after, last, others⟩ := later k v between
      refine ⟨after, last, ?_⟩
      rw [List.countP_cons]
      simp only [decide_eq_true_eq]
      omega

end Joining

/-- Shutdown. There is a sleeper exactly while `have_sleeper_` says so, and never a second one;
only a set `exit_` lets a worker out of `Loop`, and once it is set nothing more is taken from the
queue. When the destructor has signalled both condition variables nobody blocks any more: in
every continuation each worker has at most three steps of its own left, one of which is the
return of the function it runs, and until it has left `Loop` it can take the next. -/
theorem shutdown_of_reachable {numThreads : ℕ} {s : State F} (reach : Reachable numThreads s) :
    (total Worker.sleeps s.workers = s.haveSleeper.toNat ∧ total Worker.blocked s.workers ≤ 1 ∧
      .checkFailed ∉ s.workers ∧ (.exited ∈ s.workers → s.exit = true)) ∧
    (s.exit = true → ∀ actions t, Runs.replay step s actions = some t →
      t.exit = true ∧ s.work.Sublist t.work ∧
        ∀ (k : ℕ) (f : F), t.workers[k]?.bind Worker.function = some f →
          s.workers[k]?.bind Worker.function = some f) ∧
    (s.destructor = .joining → ∀ actions t, Runs.replay step s actions = some t →
      (.waiting ∉ t.workers ∧ ∀ d, .sleeping d ∉ t.workers) ∧
        ∀ (k : ℕ) (w : Worker F), s.workers[k]? = some w → ∃ after, t.workers[k]? = some after ∧
          actions.countP (fun a => a.worker = some k) + after.remaining = w.remaining ∧
          (after = .exited ∨ ∃ a : Action F, a.worker = some k ∧ (step t a).isSome = true)) := by
  have inv := reachable_inv reach
  have shut := reachable_shutdown reach
  refine ⟨⟨inv.sleeper, ?_, shut.checked, shut.left⟩, fun exit actions t ran => ?_, ?_⟩
  · have both := total_add_le Worker.blocked_add_returns s.workers
    have sleeper := inv.sleeper
    have := Bool.toNat_le s.haveSleeper
    omega
  · exact replay_exit exit ran
  · intro joining actions t ran
    obtain ⟨still, remaining⟩ := replay_joining reach joining ran
    have later := reachable_shutdown (Runs.replay_reachable actions reach ran)
    refine ⟨⟨later.signalled (Or.inr still), later.freed still⟩, fun k w found => ?_⟩
    obtain ⟨after, last, counted⟩ := remaining k w found
    exact ⟨after, last, counted, own_enabled later still last⟩

/-- A pool whose destructor joins while one worker sleeps no more and the other runs a function. -/
def joined : State Unit where
  clock := 0
  lastIdx := 2
  exit := true
  haveSleeper := true
  work := [⟨5, 2, ()⟩]
  workers := [.sleeperWoken, .running ()]
  schedulers := [.done, .done]
  destructor := .joining

theorem joined_reachable : Reachable 2 joined :=
  Runs.replay_reachable
    [.call 0 (), .call 5 (), .lockScheduler 0, .notifyScheduler 0 none, .lockWorker 1,
      .lockScheduler 1, .notifyScheduler 1 none, .lockWorker 0, .destroy, .destroyNotifyAll,
      .destroyNotifySleeper (some 0)]
    (.start ⟨0, rfl⟩) rfl

theorem shutdown_of_reachable_joined :
    ∃ t, Runs.replay step joined [.lockWorker 0, .finish 1, .lockWorker 1] = some t ∧
      ∃ after, t.workers[1]? = some after ∧ 2 + after.remaining = 2 := by
  refine ⟨_, rfl, ?_⟩
  obtain ⟨after, found, counted, -⟩ := ((shutdown_of_reachable joined_reachable).2.2 rfl
    [.lockWorker 0, .finish 1, .lockWorker 1] _ rfl).2 1 (.running ()) rfl
  exact ⟨after, found, counted⟩

end Hcproxy.ThreadPool
