import Hcproxy.ThreadPool

set_option autoImplicit false

namespace Hcproxy.ThreadPool

open Threads

variable {F : Type}

/-- What a step of a pool can do. -/
inductive Moved (s : State F) : Action F → State F → Prop
  | tick (elapsed : ℕ) : Moved s (.tick elapsed) { s with clock := s.clock + elapsed }
  | call (t : ℤ) (f : F) :
    Moved s (.call t f) { s with schedulers := s.schedulers ++ [.locking t f] }
  | lockScheduler {i : ℕ} {t : ℤ} {f : F} (found : s.schedulers[i]? = some (.locking t f)) :
      Moved s (.lockScheduler i)
        { (schedule s t f).2 with schedulers := s.schedulers.set i (schedule s t f).1 }
  | notifyScheduler {i : ℕ} {target : Option ℕ} {wake : CondVar} {workers : List (Worker F)}
      (found : s.schedulers[i]? = some (.notifying wake))
      (notified : notifyOne wake target s.workers = some workers) :
      Moved s (.notifyScheduler i target)
        { s with workers, schedulers := s.schedulers.set i .done }
  | lockWorker {j : ℕ} {w after : Worker F} {s' : State F} (found : s.workers[j]? = some w)
      (acquired : acquire s w = some (after, s')) :
      Moved s (.lockWorker j) { s' with workers := s.workers.set j after }
  | notifyWorker {j : ℕ} {target : Option ℕ} {f : F} {workers : List (Worker F)}
      (found : s.workers[j]? = some (.notifying f))
      (notified : notifyOne .cv target (s.workers.set j (.running f)) = some workers) :
      Moved s (.notifyWorker j target) { s with workers }
  | timeout {j : ℕ} {deadline : ℤ} (found : s.workers[j]? = some (.sleeping deadline))
      (due : deadline ≤ s.clock) :
      Moved s (.timeout j) { s with workers := s.workers.set j .sleeperWoken }
  | waits {j : ℕ} (found : s.workers[j]? = some .waiting) :
      Moved s (.spurious j) { s with workers := s.workers.set j .woken }
  | sleeps {j : ℕ} {deadline : ℤ} (found : s.workers[j]? = some (.sleeping deadline)) :
      Moved s (.spurious j) { s with workers := s.workers.set j .sleeperWoken }
  | finish {j : ℕ} {f : F} (found : s.workers[j]? = some (.running f)) :
      Moved s (.finish j) { s with workers := s.workers.set j .locking }
  | destroy (before : s.destructor = .notStarted) :
      Moved s .destroy { s with exit := true, destructor := .notifyingAll }
  | destroyNotifyAll (before : s.destructor = .notifyingAll) :
      Moved s .destroyNotifyAll
        { s with workers := notifyAll s.workers, destructor := .notifyingSleeper }
  | destroyNotifySleeper {target : Option ℕ} {workers : List (Worker F)}
      (before : s.destructor = .notifyingSleeper)
      (notified : notifyOne .sleeperCv target s.workers = some workers) :
      Moved s (.destroyNotifySleeper target) { s with workers, destructor := .joining }

theorem moved_of_step {s t : State F} {a : Action F} (stepped : step s a = some t) :
    Moved s a t := by
  cases a with
  | tick elapsed =>
      cases stepped
      exact .tick elapsed
  | call t f =>
      cases stepped
      exact .call t f
  | lockScheduler i =>
      simp only [step] at stepped
      split at stepped
      · rename_i found
        cases stepped
        exact .lockScheduler found
      · cases stepped
  | notifyScheduler i target =>
      simp only [step] at stepped
      split at stepped
      · rename_i found
        obtain ⟨workers, notified, rfl⟩ := Option.map_eq_some_iff.mp stepped
        exact .notifyScheduler found notified
      · cases stepped
  | lockWorker j =>
      simp only [step] at stepped
      split at stepped
      · rename_i acquired
        cases stepped
        obtain ⟨w, found, acquired⟩ := Option.bind_eq_some_iff.mp acquired
        exact .lockWorker found acquired
      · cases stepped
  | notifyWorker j target =>
      simp only [step] at stepped
      split at stepped
      · rename_i found
        obtain ⟨workers, notified, rfl⟩ := Option.map_eq_some_iff.mp stepped
        exact .notifyWorker found notified
      · cases stepped
  | timeout j =>
      simp only [step] at stepped
      split at stepped
      · rename_i found
        split at stepped
        · rename_i due
          cases stepped
          exact .timeout found due
        · cases stepped
      · cases stepped
  | spurious j =>
      simp only [step] at stepped
      split at stepped
      · rename_i found
        cases stepped
        exact .waits found
      · rename_i found
        cases stepped
        exact .sleeps found
      · cases stepped
  | finish j =>
      simp only [step] at stepped
      split at stepped
      · rename_i found
        cases stepped
        exact .finish found
      · cases stepped
  | destroy =>
      simp only [step] at stepped
      split at stepped
      · rename_i before
        cases stepped
        exact .destroy before
      · cases stepped
  | destroyNotifyAll =>
      simp only [step] at stepped
      split at stepped
      · rename_i before
        cases stepped
        exact .destroyNotifyAll before
      · cases stepped
  | destroyNotifySleeper target =>
      simp only [step] at stepped
      split at stepped
      · rename_i before
        obtain ⟨workers, notified, rfl⟩ := Option.map_eq_some_iff.mp stepped
        exact .destroyNotifySleeper before notified
      · cases stepped

/-- The worker is inside `Next` and will look at the queue before it blocks again. -/
def Worker.awake : Worker F → ℕ
  | .locking | .woken | .sleeperWoken => 1
  | _ => 0

/-- The worker has decided to call `cv_.notify_one` and has not called it yet. -/
def Worker.notifies : Worker F → ℕ
  | .notifying _ => 1
  | _ => 0

/-- The worker waits on `cv_` and no notification has reached it. -/
def Worker.waits : Worker F → ℕ
  | .waiting => 1
  | _ => 0

/-- The worker is the sleeper: it started to wait on `sleeper_cv_` and has not re-acquired
`mutex_` since. -/
def Worker.sleeps : Worker F → ℕ
  | .sleeping _ | .sleeperWoken => 1
  | _ => 0

/-- The sleeper is still blocked. -/
def Worker.blocked : Worker F → ℕ
  | .sleeping _ => 1
  | _ => 0

/-- The sleeper is on its way back to `mutex_`. -/
def Worker.returns : Worker F → ℕ
  | .sleeperWoken => 1
  | _ => 0

theorem Worker.blocked_add_returns (w : Worker F) : w.blocked + w.returns ≤ w.sleeps := by
  cases w <;> simp [Worker.blocked, Worker.returns, Worker.sleeps]

/-- The call of `Schedule` has decided on this `notify_one` and has not issued it yet. -/
def Scheduler.notifies (wake : CondVar) : Scheduler F → ℕ
  | .notifying decided => if decided = wake then 1 else 0
  | _ => 0

/-- Notifications of `cv_` that are decided and not issued. -/
def State.cvNotifications (s : State F) : ℕ :=
  total Worker.notifies s.workers + total (Scheduler.notifies .cv) s.schedulers

/-- Notifications of `sleeper_cv_` that are decided and not issued. -/
def State.sleeperNotifications (s : State F) : ℕ :=
  total (Scheduler.notifies .sleeperCv) s.schedulers

/-- The queue is in priority order: no element is smaller than a later one. -/
def Ordered (work : List (Work F)) : Prop := work.Pairwise fun a b => a.lt b = false

theorem Work.lt_iff (a b : Work F) :
    a.lt b = true ↔ b.t < a.t ∨ b.t = a.t ∧ b.idx < a.idx := by
  simp [Work.lt]

theorem Work.le_of_not_lt {a b : Work F} (notLess : a.lt b = false) : a.t ≤ b.t := by
  have := (Work.lt_iff a b).not.mp (by simp [notLess])
  omega

theorem mem_push {w v : Work F} {work : List (Work F)} : v ∈ push w work ↔ v = w ∨ v ∈ work := by
  induction work with
  | nil => simp [push]
  | cons head rest ih =>
      unfold push
      split
      · simp
      · simp only [List.mem_cons, ih]
        tauto

theorem push_ordered {w : Work F} {work : List (Work F)} (ordered : Ordered work) :
    Ordered (push w work) := by
  induction work with
  | nil => simp [push, Ordered]
  | cons head rest ih =>
      obtain ⟨first, later⟩ := List.pairwise_cons.mp ordered
      unfold push
      split
      · rename_i smaller
        refine List.pairwise_cons.mpr ⟨?_, ordered⟩
        intro v member
        have headBefore := (Work.lt_iff head w).mp smaller
        apply Bool.eq_false_iff.mpr
        intro less
        have less := (Work.lt_iff w v).mp less
        rcases List.mem_cons.mp member with rfl | member
        · omega
        · have := (Work.lt_iff head v).not.mp (by simp [first v member])
          omega
      · rename_i notSmaller
        refine List.pairwise_cons.mpr ⟨?_, ih later⟩
        intro v member
        rcases mem_push.mp member with rfl | member
        · simpa using notSmaller
        · exact first v member

/-- A push changes the head of the queue only by becoming it. -/
theorem push_head (w : Work F) (work : List (Work F)) :
    (push w work).head? = some w ∨ (push w work).head? = work.head? ∧ work ≠ [] := by
  cases work with
  | nil => simp [push]
  | cons head rest =>
      unfold push
      split <;> simp

theorem Ordered.head_le {top v : Work F} {rest : List (Work F)} (ordered : Ordered (top :: rest))
    (member : v ∈ rest) : top.t ≤ v.t :=
  Work.le_of_not_lt ((List.pairwise_cons.mp ordered).1 v member)

/-- One notification more while a thread is inside the call of `notify_one` on `wake`. -/
def issuing (call : Option CondVar) (wake : CondVar) : ℕ := if call = some wake then 1 else 0

/-- What every interleaving keeps. The last clause is the one about `cv_`: while there is no
sleeper, a queue with work in it always has a thread that is about to look at it. `call` is the
notification that is being issued: between two steps there is none. -/
structure Inv (numThreads : ℕ) (call : Option CondVar) (s : State F) : Prop where
  threads : s.workers.length = numThreads
  ordered : Ordered s.work
  sleeper : total Worker.sleeps s.workers = s.haveSleeper.toNat
  deadline : ∀ d, .sleeping d ∈ s.workers → ∀ top, s.work.head? = some top →
    d ≤ top.t ∨ 0 < s.sleeperNotifications + issuing call .sleeperCv
  covered : s.exit = false → s.haveSleeper = false → s.work ≠ [] →
    0 < total Worker.waits s.workers →
    0 < total Worker.awake s.workers + s.cvNotifications + issuing call .cv

theorem init_inv {numThreads : ℕ} {s : State F} (init : Init numThreads s) :
    Inv numThreads none s := by
  obtain ⟨clock, rfl⟩ := init
  refine ⟨by simp, by simp [Ordered], ?_, ?_, by simp⟩
  · simp [Worker.sleeps]
  · intro d member
    simp at member

/-- The ways a thread that holds `mutex_` in `Next` can give it up. -/
inductive Next (s : State F) : Worker F × State F → Prop
  | exits (exit : s.exit = true) : Next s (.exited, s)
  | empty (work : s.work = []) : Next s (.waiting, s)
  | passesOn {top : Work F} {rest : List (Work F)} (work : s.work = top :: rest)
      (alone : s.haveSleeper = false) : Next s (.notifying top.f, { s with work := rest })
  | takes {top : Work F} {rest : List (Work F)} (work : s.work = top :: rest)
      (enough : rest = [] ∨ s.haveSleeper = true) : Next s (.running top.f, { s with work := rest })
  | defers (sleeper : s.haveSleeper = true) : Next s (.waiting, s)
  | sleeps {top : Work F} {rest : List (Work F)} (work : s.work = top :: rest)
      (alone : s.haveSleeper = false) : Next s (.sleeping top.t, { s with haveSleeper := true })

theorem next_spec (s : State F) : Next s (next s) := by
  unfold next
  split
  · rename_i exit
    exact .exits exit
  · split
    · rename_i work
      exact .empty work
    · rename_i top rest work
      split
      · cases alone : s.haveSleeper with
        | false =>
            cases rest with
            | nil => simpa [alone] using Next.takes work (Or.inl rfl)
            | cons second rest => simpa [alone] using Next.passesOn work alone
        | true => simpa [alone] using Next.takes work (Or.inr alone)
      · split
        · rename_i sleeper
          exact .defers sleeper
        · rename_i noSleeper
          exact .sleeps work (by simpa using noSleeper)

/-- Taking the first element leaves a deadline no later than what is then the first. -/
theorem deadline_pop {s : State F} {top : Work F} {rest : List (Work F)} (ordered : Ordered s.work)
    (work : s.work = top :: rest) {d : ℤ}
    {owed : ℕ} (before : ∀ w, s.work.head? = some w → d ≤ w.t ∨ 0 < owed) :
    ∀ w, rest.head? = some w → d ≤ w.t ∨ 0 < owed := by
  intro w head
  rw [work] at ordered
  have later := ordered.head_le (List.mem_of_mem_head? head)
  rcases before top (by simp [work]) with early | notified
  · exact Or.inl (by omega)
  · exact Or.inr notified

theorem Ordered.rest {top : Work F} {rest : List (Work F)} (ordered : Ordered (top :: rest)) :
    Ordered rest := (List.pairwise_cons.mp ordered).2

/-- A thread that holds `mutex_` in `Next` keeps the invariant, whichever way it gives it up.
`s` is the state after the thread has stopped being the sleeper, if it was. -/
theorem next_kept {numThreads j : ℕ} {s : State F} {w : Worker F}
    (found : s.workers[j]? = some w) (calm : w.notifies = 0)
    (threads : s.workers.length = numThreads) (ordered : Ordered s.work)
    (sleeper : total Worker.sleeps s.workers = s.haveSleeper.toNat + w.sleeps)
    (deadline : ∀ d, .sleeping d ∈ s.workers → ∀ top, s.work.head? = some top →
      d ≤ top.t ∨ 0 < s.sleeperNotifications + issuing none .sleeperCv) :
    Inv numThreads none { (next s).2 with workers := s.workers.set j (next s).1 } := by
  have length : ∀ y, (s.workers.set j y).length = numThreads := by
    intro y
    simpa using threads
  have stays : ∀ y : Worker F, y.sleeps = 0 →
      total Worker.sleeps (s.workers.set j y) = s.haveSleeper.toNat := by
    intro y awake
    have := total_set Worker.sleeps y found
    omega
  have kept : ∀ y : Worker F, y.sleeps = 0 → ∀ d, .sleeping d ∈ s.workers.set j y →
      .sleeping d ∈ s.workers := by
    intro y awake d member
    rcases mem_set member with same | member
    · simp [← same, Worker.sleeps] at awake
    · exact member
  have result := next_spec s
  generalize next s = moved at result
  cases result with
  | exits exit =>
      exact ⟨length _, ordered, stays _ rfl, fun d member => deadline d (kept _ rfl d member),
        fun running => by simp [exit] at running⟩
  | empty work =>
      exact ⟨length _, ordered, stays _ rfl, fun d member => deadline d (kept _ rfl d member),
        fun _ _ more => absurd work more⟩
  | @passesOn top rest work alone =>
      refine ⟨length _, (work ▸ ordered).rest, stays _ rfl,
        fun d member => deadline_pop ordered work (deadline d (kept _ rfl d member)), ?_⟩
      intro _ _ _ _
      have decided : total Worker.notifies (s.workers.set j (.notifying top.f)) + w.notifies =
          total Worker.notifies s.workers + 1 := total_set _ _ found
      simp only [State.cvNotifications]
      omega
  | @takes top rest work enough =>
      refine ⟨length _, (work ▸ ordered).rest, stays _ rfl,
        fun d member => deadline_pop ordered work (deadline d (kept _ rfl d member)), ?_⟩
      intro _ alone more
      rcases enough with last | sleeper
      · exact absurd last more
      · exact absurd sleeper (by simpa using alone)
  | defers busy =>
      exact ⟨length _, ordered, stays _ rfl, fun d member => deadline d (kept _ rfl d member),
        fun _ alone => absurd busy (by simpa using alone)⟩
  | @sleeps top rest work alone =>
      refine ⟨length _, ordered, ?_, ?_, fun _ busy => by simp at busy⟩
      · have asleep : total Worker.sleeps (s.workers.set j (.sleeping top.t)) + w.sleeps =
            total Worker.sleeps s.workers + 1 := total_set _ _ found
        simp only [alone, Bool.toNat_false] at sleeper
        simp only [Bool.toNat_true]
        omega
      · intro d member head isHead
        rcases mem_set member with same | member
        · cases same
          simp only [work, List.head?_cons, Option.some.injEq] at isHead
          exact Or.inl (by simp [isHead])
        · exact deadline d member head isHead

theorem acquire_kept {numThreads j : ℕ} {s s' : State F} {w after : Worker F}
    (inv : Inv numThreads none s) (found : s.workers[j]? = some w)
    (acquired : acquire s w = some (after, s')) :
    Inv numThreads none { s' with workers := s.workers.set j after } := by
  cases w with
  | locking =>
      have moved := Option.some.inj acquired
      have kept := next_kept found rfl inv.threads inv.ordered inv.sleeper inv.deadline
      rwa [moved] at kept
  | woken =>
      have moved := Option.some.inj acquired
      have kept := next_kept found rfl inv.threads inv.ordered inv.sleeper inv.deadline
      rwa [moved] at kept
  | sleeperWoken =>
      have one : 1 ≤ total Worker.sleeps s.workers :=
        weight_le_total Worker.sleeps (List.mem_of_getElem? found)
      have sleeper := inv.sleeper
      have holds : s.haveSleeper = true := by
        cases flag : s.haveSleeper with
        | true => rfl
        | false =>
            simp only [flag, Bool.toNat_false] at sleeper
            omega
      simp only [acquire, wakeSleeper, holds, ↓reduceIte, Option.some.injEq] at acquired
      have kept := next_kept (s := { s with haveSleeper := false }) found rfl inv.threads
        inv.ordered (by simpa [holds, Worker.sleeps] using sleeper) inv.deadline
      rwa [acquired] at kept
  | waiting | sleeping | notifying | running | checkFailed | exited => cases acquired

/-- What a successful `notify_one` did: it woke its target, or nobody was blocked. -/
theorem notifyOne_cases {wake : CondVar} {target : Option ℕ} {workers after : List (Worker F)}
    (notified : notifyOne wake target workers = some after) :
    (∃ (j : ℕ) (w y : Worker F), workers[j]? = some w ∧ w.wake wake = some y ∧
      after = workers.set j y) ∨
    (after = workers ∧ ∀ w ∈ workers, w.wake wake = none) := by
  cases target with
  | some j =>
      obtain ⟨y, woke, rfl⟩ := Option.map_eq_some_iff.mp notified
      obtain ⟨w, found, woke⟩ := Option.bind_eq_some_iff.mp woke
      exact Or.inl ⟨j, w, y, found, woke, rfl⟩
  | none =>
      simp only [notifyOne] at notified
      split at notified
      · rename_i nobody
        cases notified
        refine Or.inr ⟨rfl, ?_⟩
        simpa using nobody
      · cases notified

theorem wake_cases {wake : CondVar} {w y : Worker F} (woke : w.wake wake = some y) :
    (wake = .cv ∧ w = .waiting ∧ y = .woken) ∨
    (wake = .sleeperCv ∧ (∃ d, w = .sleeping d) ∧ y = .sleeperWoken) := by
  cases wake <;> cases w <;> simp_all [Worker.wake]

/-- A blocked thread that is woken, for whatever reason, takes the notification with it. -/
theorem wake_kept {numThreads j : ℕ} {call : Option CondVar} {s : State F} (wake : CondVar)
    {w y : Worker F} (inv : Inv numThreads call s) (issued : ∀ other, call = some other → other = wake)
    (found : s.workers[j]? = some w) (woke : w.wake wake = some y) :
    Inv numThreads none { s with workers := s.workers.set j y } := by
  have length : (s.workers.set j y).length = numThreads := by simpa using inv.threads
  rcases wake_cases woke with ⟨rfl, rfl, rfl⟩ | ⟨rfl, ⟨d, rfl⟩, rfl⟩
  · have sleeps : total Worker.sleeps (s.workers.set j .woken) + 0 =
        total Worker.sleeps s.workers + 0 := total_set _ _ found
    have awake : total Worker.awake (s.workers.set j .woken) + 0 =
        total Worker.awake s.workers + 1 := total_set _ _ found
    have other : issuing call .sleeperCv = 0 := by
      unfold issuing
      split
      · rename_i same
        cases issued _ same
      · rfl
    refine ⟨length, inv.ordered, sleeps.trans inv.sleeper, ?_, ?_⟩
    · intro e member top head
      rcases mem_set member with same | member
      · cases same
      · have early := inv.deadline e member top head
        rw [other] at early
        exact early
    · intro _ _ _ _
      dsimp only
      omega
  · have sleeps : total Worker.sleeps (s.workers.set j .sleeperWoken) + 1 =
        total Worker.sleeps s.workers + 1 := total_set _ _ found
    have awake : total Worker.awake (s.workers.set j .sleeperWoken) + 0 =
        total Worker.awake s.workers + 1 := total_set _ _ found
    refine ⟨length, inv.ordered, ?_, ?_, ?_⟩
    · have := inv.sleeper
      dsimp only
      omega
    · intro e member
      -- Two threads cannot both be the sleeper.
      have returns : 1 ≤ total Worker.returns (s.workers.set j .sleeperWoken) :=
        weight_le_total Worker.returns (x := .sleeperWoken) (mem_set_self _ found)
      have blocked : 1 ≤ total Worker.blocked (s.workers.set j .sleeperWoken) :=
        weight_le_total Worker.blocked member
      have both := total_add_le Worker.blocked_add_returns (s.workers.set j .sleeperWoken)
      have one := Bool.toNat_le s.haveSleeper
      have := inv.sleeper
      omega
    · intro _ _ _ _
      dsimp only
      omega

/-- `notify_one` settles the notification that was being issued. -/
theorem notify_kept {numThreads : ℕ} {s : State F} {wake : CondVar} {target : Option ℕ}
    {after : List (Worker F)} (inv : Inv numThreads (some wake) s)
    (notified : notifyOne wake target s.workers = some after) :
    Inv numThreads none { s with workers := after } := by
  rcases notifyOne_cases notified with ⟨j, w, y, found, woke, rfl⟩ | ⟨rfl, nobody⟩
  · exact wake_kept wake inv (fun other same => (Option.some.inj same).symm) found woke
  · refine ⟨inv.threads, inv.ordered, inv.sleeper, ?_, ?_⟩
    · intro d member top head
      cases wake with
      | cv => simpa [issuing] using inv.deadline d member top head
      | sleeperCv => exact absurd (nobody _ member) (by simp [Worker.wake])
    · intro running alone more waits
      cases wake with
      | cv =>
          obtain ⟨w, member, positive⟩ := exists_of_total_pos waits
          have unmoved := nobody w member
          cases w <;> simp_all [Worker.wake, Worker.waits]
      | sleeperCv => simpa [issuing] using inv.covered running alone more waits

theorem Inv.issue {numThreads : ℕ} {call : Option CondVar} {s : State F}
    (inv : Inv numThreads none s) : Inv numThreads call s := by
  refine ⟨inv.threads, inv.ordered, inv.sleeper, ?_, ?_⟩
  · intro d member top head
    have := inv.deadline d member top head
    simp only [issuing, reduceCtorEq, ↓reduceIte] at this
    omega
  · intro running alone more waits
    have := inv.covered running alone more waits
    simp only [issuing, reduceCtorEq, ↓reduceIte] at this
    omega

/-- The ways a thread that holds `mutex_` in `Schedule` can give it up. -/
theorem schedule_cases (s : State F) (t : ℤ) (f : F) :
    (schedule s t f).1 = .notifying (if s.haveSleeper then .sleeperCv else .cv) ∨
    ((schedule s t f).1 = .done ∧
      (push ⟨t, s.lastIdx + 1, f⟩ s.work).head? = s.work.head? ∧ s.work ≠ []) := by
  rcases push_head ⟨t, s.lastIdx + 1, f⟩ s.work with becomes | unchanged
  · exact Or.inl (by simp [schedule, becomes])
  · by_cases first : (push ⟨t, s.lastIdx + 1, f⟩ s.work).head?.any (·.idx == s.lastIdx + 1)
    · exact Or.inl (by simp [schedule, first])
    · exact Or.inr ⟨by simp [schedule, first], unchanged⟩

/-- `Schedule` decides on the notification that its element calls for. -/
theorem schedule_kept {numThreads i : ℕ} {t : ℤ} {f : F} {s : State F}
    (inv : Inv numThreads none s) (found : s.schedulers[i]? = some (.locking t f)) :
    Inv numThreads none { (schedule s t f).2 with
      schedulers := s.schedulers.set i (schedule s t f).1 } := by
  have ordered := push_ordered (w := ⟨t, s.lastIdx + 1, f⟩) inv.ordered
  have decided : ∀ (wake : CondVar) (y : Scheduler F),
      total (Scheduler.notifies wake) (s.schedulers.set i y) =
        total (Scheduler.notifies wake) s.schedulers + y.notifies wake :=
    fun wake y => total_set (Scheduler.notifies wake) y found
  rcases schedule_cases s t f with notifying | ⟨done, same, more⟩
  · rw [notifying]
    refine ⟨inv.threads, ordered, inv.sleeper, ?_, ?_⟩
    · intro d member top head
      -- A thread is blocked on `sleeper_cv_`, so that is the condition variable chosen.
      have blocked : 1 ≤ total Worker.blocked s.workers := weight_le_total Worker.blocked member
      have both := total_add_le Worker.blocked_add_returns s.workers
      have sleeper := inv.sleeper
      have holds : s.haveSleeper = true := by
        cases flag : s.haveSleeper with
        | true => rfl
        | false =>
            simp only [flag, Bool.toNat_false] at sleeper
            omega
      have := decided .sleeperCv (.notifying .sleeperCv)
      refine Or.inr ?_
      simp only [State.sleeperNotifications, holds, ↓reduceIte, this, Scheduler.notifies]
      omega
    · intro _ alone _ _
      have := decided .cv (.notifying .cv)
      have alone : s.haveSleeper = false := alone
      simp only [State.cvNotifications, alone, Bool.false_eq_true, ↓reduceIte, this,
        Scheduler.notifies]
      omega
  · rw [done]
    have unchanged := fun wake => decided wake .done
    refine ⟨inv.threads, ordered, inv.sleeper, ?_, ?_⟩
    · intro d member top head
      have := inv.deadline d member top (same ▸ head)
      simp only [State.sleeperNotifications, unchanged, Scheduler.notifies] at this ⊢
      exact this
    · intro running alone _ waits
      have := inv.covered running alone more waits
      simp only [State.cvNotifications, unchanged, Scheduler.notifies] at this ⊢
      exact this

theorem notifyAll_total {f : Worker F → ℕ} (same : f .waiting = f .woken)
    (workers : List (Worker F)) : total f (notifyAll workers) = total f workers := by
  induction workers with
  | nil => rfl
  | cons head rest ih =>
      simp only [notifyAll, List.map_cons, total_cons] at ih ⊢
      rw [ih]
      cases head <;> simp [Worker.wake, same]

theorem mem_notifyAll {d : ℤ} {workers : List (Worker F)}
    (member : .sleeping d ∈ notifyAll workers) : .sleeping d ∈ workers := by
  obtain ⟨w, member, same⟩ := List.mem_map.mp member
  cases w <;> simp [Worker.wake] at same
  rwa [← same]

/-- Each step of any thread keeps the invariant. -/
theorem step_kept {numThreads : ℕ} {s s' : State F} (a : Action F)
    (inv : Inv numThreads none s) (stepped : step s a = some s') : Inv numThreads none s' := by
  cases moved_of_step stepped with
  | tick elapsed => exact ⟨inv.threads, inv.ordered, inv.sleeper, inv.deadline, inv.covered⟩
  | call t f =>
      refine ⟨inv.threads, inv.ordered, inv.sleeper, ?_, ?_⟩
      · intro d member top head
        simpa [State.sleeperNotifications, Scheduler.notifies] using inv.deadline d member top head
      · intro running alone more waits
        simpa [State.cvNotifications, Scheduler.notifies] using
          inv.covered running alone more waits
  | lockScheduler found => exact schedule_kept inv found
  | @notifyScheduler i target wake workers found notified =>
      have settled : ∀ other, total (Scheduler.notifies other) (s.schedulers.set i .done) +
          Scheduler.notifies other (.notifying wake : Scheduler F) =
          total (Scheduler.notifies other) s.schedulers := fun other => total_set _ _ found
      have taken : Inv numThreads (some wake)
          { s with schedulers := s.schedulers.set i .done } := by
        refine ⟨inv.threads, inv.ordered, inv.sleeper, ?_, ?_⟩
        · intro d member top head
          have early := inv.deadline d member top head
          have := settled .sleeperCv
          simp only [State.sleeperNotifications, Scheduler.notifies, issuing] at early this ⊢
          simp only [Option.some.injEq, reduceCtorEq, ↓reduceIte] at early ⊢
          omega
        · intro running alone more waits
          have covered := inv.covered running alone more waits
          have := settled .cv
          simp only [State.cvNotifications, Scheduler.notifies, issuing] at covered this ⊢
          simp only [Option.some.injEq, reduceCtorEq, ↓reduceIte] at covered ⊢
          omega
      exact notify_kept taken notified
  | lockWorker found acquired => exact acquire_kept inv found acquired
  | @notifyWorker j target f workers found notified =>
      have sleeps : total Worker.sleeps (s.workers.set j (.running f)) + 0 =
          total Worker.sleeps s.workers + 0 := total_set _ _ found
      have waits : total Worker.waits (s.workers.set j (.running f)) + 0 =
          total Worker.waits s.workers + 0 := total_set _ _ found
      have taken : Inv numThreads (some .cv) { s with workers := s.workers.set j (.running f) } := by
        refine ⟨by simpa using inv.threads, inv.ordered, sleeps.trans inv.sleeper, ?_, ?_⟩
        · intro d member
          exact inv.deadline d (by simpa using mem_set member)
        · intro _ _ _ _
          simp [issuing]
      exact notify_kept (s := { s with workers := s.workers.set j (.running f) }) taken notified
  | timeout found | sleeps found => exact wake_kept .sleeperCv inv (by simp) found rfl
  | waits found => exact wake_kept .cv inv (by simp) found rfl
  | @finish j f found =>
      have sleeps : total Worker.sleeps (s.workers.set j .locking) + 0 =
          total Worker.sleeps s.workers + 0 := total_set _ _ found
      have awake : total Worker.awake (s.workers.set j .locking) + 0 =
          total Worker.awake s.workers + 1 := total_set _ _ found
      refine ⟨by simpa using inv.threads, inv.ordered, sleeps.trans inv.sleeper, ?_, ?_⟩
      · intro d member
        exact inv.deadline d (by simpa using mem_set member)
      · intro _ _ _ _
        dsimp only
        omega
  | destroy =>
      exact ⟨inv.threads, inv.ordered, inv.sleeper, inv.deadline, fun running => by simp at running⟩
  | destroyNotifyAll =>
      refine ⟨by simpa [notifyAll] using inv.threads, inv.ordered, ?_, ?_, ?_⟩
      · exact (notifyAll_total rfl s.workers).trans inv.sleeper
      · intro d member
        exact inv.deadline d (mem_notifyAll member)
      · intro _ _ _ waits
        obtain ⟨w, member, positive⟩ := exists_of_total_pos waits
        obtain ⟨v, _, rfl⟩ := List.mem_map.mp member
        cases v <;> simp [Worker.wake, Worker.waits] at positive
  | destroyNotifySleeper before notified =>
      have kept := notify_kept inv.issue notified
      exact ⟨kept.threads, kept.ordered, kept.sleeper, kept.deadline, kept.covered⟩

theorem reachable_inv {numThreads : ℕ} {s : State F} (reach : Reachable numThreads s) :
    Inv numThreads none s := by
  refine Runs.Reachable.invariant (I := Inv numThreads none) ?_ ?_ reach
  · intro s initial
    exact init_inv initial
  · rintro s t inv ⟨a, _, stepped⟩
    exact step_kept a inv stepped

/-- Blocked workers of which one is the sleeper: the sleeper can be named. -/
theorem one_sleeper {workers : List (Worker F)}
    (blocked : ∀ w ∈ workers, w = .waiting ∨ ∃ d, w = .sleeping d)
    (one : total Worker.sleeps workers = 1) :
    ∃ d, workers.filter Worker.isSleeping = [.sleeping d] := by
  have counted : (workers.filter Worker.isSleeping).length = total Worker.sleeps workers := by
    clear one
    induction workers with
    | nil => rfl
    | cons head rest ih =>
        have tail := ih fun w member => blocked w (List.mem_cons_of_mem _ member)
        rcases blocked head List.mem_cons_self with rfl | ⟨d, rfl⟩
        · simpa [Worker.isSleeping, Worker.sleeps] using tail
        · rw [List.filter_cons_of_pos rfl, List.length_cons, tail, total_cons]
          exact Nat.add_comm _ _
  obtain ⟨w, only⟩ := List.length_eq_one_iff.mp (counted.trans one)
  have member : w ∈ workers.filter Worker.isSleeping := by simp [only]
  obtain ⟨member, asleep⟩ := List.mem_filter.mp member
  rcases blocked w member with rfl | ⟨d, rfl⟩
  · cases asleep
  · exact ⟨d, only⟩

theorem awake_of_pos {workers : List (Worker F)} (positive : 0 < total Worker.awake workers) :
    ∃ w ∈ workers, w = .locking ∨ w = .woken ∨ w = .sleeperWoken := by
  obtain ⟨w, member, awake⟩ := exists_of_total_pos positive
  refine ⟨w, member, ?_⟩
  cases w <;> simp_all [Worker.awake]

theorem notifying_of_pos {wake : CondVar} {schedulers : List (Scheduler F)}
    (positive : 0 < total (Scheduler.notifies wake) schedulers) :
    .notifying wake ∈ schedulers := by
  obtain ⟨x, member, notifies⟩ := exists_of_total_pos positive
  cases x with
  | notifying decided =>
      simp only [Scheduler.notifies] at notifies
      split at notifies
      · rename_i same
        exact same ▸ member
      · omega
  | locking => simp [Scheduler.notifies] at notifies
  | done => simp [Scheduler.notifies] at notifies

theorem notification_of_pos {s : State F} (positive : 0 < s.cvNotifications) :
    (∃ f, .notifying f ∈ s.workers) ∨ .notifying .cv ∈ s.schedulers := by
  by_cases workers : 0 < total Worker.notifies s.workers
  · obtain ⟨w, member, notifies⟩ := exists_of_total_pos workers
    cases w <;> simp [Worker.notifies] at notifies
    exact Or.inl ⟨_, member⟩
  · refine Or.inr (notifying_of_pos ?_)
    simp only [State.cvNotifications] at positive
    omega

/-- No wake-up is lost: before shutdown a non-empty queue never waits for a notification that
nobody will send. When every worker is blocked and nothing is about to be signalled, one worker
sleeps no longer than until the first element is due. -/
theorem no_lost_wakeup {numThreads : ℕ} (positive : 0 < numThreads) {s : State F}
    (reach : Reachable numThreads s) (running : s.exit = false) :
    (∀ top rest, s.work = top :: rest → .waiting ∈ s.workers →
      (∃ w ∈ s.workers, w = .locking ∨ w = .woken ∨ w = .sleeperWoken) ∨
      ((∃ f, .notifying f ∈ s.workers) ∨ .notifying .cv ∈ s.schedulers) ∨
      (s.haveSleeper = true ∧
        ((∃ d, .sleeping d ∈ s.workers ∧ d ≤ top.t) ∨
          .notifying .sleeperCv ∈ s.schedulers ∨ .sleeperWoken ∈ s.workers))) ∧
    (∀ top rest, s.work = top :: rest →
      (∀ w ∈ s.workers, w = .waiting ∨ ∃ d, w = .sleeping d) →
      (∀ wake, .notifying wake ∉ s.schedulers) →
      s.haveSleeper = true ∧
        ∃ d, s.workers.filter Worker.isSleeping = [.sleeping d] ∧ d ≤ top.t) := by
  have inv := reachable_inv reach
  have sleeper := inv.sleeper
  constructor
  · intro top rest work waiting
    cases flag : s.haveSleeper with
    | false =>
        have waits : 1 ≤ total Worker.waits s.workers := weight_le_total Worker.waits waiting
        have covered := inv.covered running flag (by simp [work]) waits
        simp only [issuing, reduceCtorEq, ↓reduceIte, Nat.add_zero] at covered
        by_cases awake : 0 < total Worker.awake s.workers
        · exact Or.inl (awake_of_pos awake)
        · exact Or.inr (Or.inl (notification_of_pos (by omega)))
    | true =>
        refine Or.inr (Or.inr ⟨rfl, ?_⟩)
        simp only [flag, Bool.toNat_true] at sleeper
        have asleep : 0 < total Worker.sleeps s.workers := by omega
        obtain ⟨w, member, sleeps⟩ := exists_of_total_pos asleep
        cases w <;> simp [Worker.sleeps] at sleeps
        case sleeping d =>
          rcases inv.deadline d member top (by simp [work]) with early | notified
          · exact Or.inl ⟨d, member, early⟩
          · have pending : 0 < s.sleeperNotifications := by
              simpa [issuing, State.sleeperNotifications] using notified
            exact Or.inr (Or.inl (notifying_of_pos pending))
        case sleeperWoken => exact Or.inr (Or.inr member)
  · intro top rest work blocked quiet
    have holds : s.haveSleeper = true := by
      apply Bool.not_eq_false _ |>.mp
      intro alone
      simp only [alone, Bool.toNat_false] at sleeper
      obtain ⟨w, member⟩ := List.exists_mem_of_length_pos (inv.threads ▸ positive)
      have waiting : .waiting ∈ s.workers := by
        rcases blocked w member with rfl | ⟨d, rfl⟩
        · exact member
        · have := total_eq_zero.mp sleeper _ member
          simp [Worker.sleeps] at this
      have waits : 1 ≤ total Worker.waits s.workers := weight_le_total Worker.waits waiting
      have covered := inv.covered running alone (by simp [work]) waits
      simp only [issuing, reduceCtorEq, ↓reduceIte, Nat.add_zero] at covered
      by_cases awake : 0 < total Worker.awake s.workers
      · obtain ⟨v, member, awake⟩ := awake_of_pos awake
        rcases blocked v member with rfl | ⟨d, rfl⟩ <;> simp at awake
      · rcases notification_of_pos (s := s) (by omega) with ⟨f, member⟩ | member
        · rcases blocked _ member with same | ⟨d, same⟩ <;> cases same
        · exact quiet _ member
    simp only [holds, Bool.toNat_true] at sleeper
    obtain ⟨d, only⟩ := one_sleeper blocked sleeper
    have member : .sleeping d ∈ s.workers := by
      have : .sleeping d ∈ s.workers.filter Worker.isSleeping := by simp [only]
      exact (List.mem_filter.mp this).1
    refine ⟨holds, d, only, ?_⟩
    rcases inv.deadline d member top (by simp [work]) with early | notified
    · exact early
    · have pending : 0 < s.sleeperNotifications := by
        simpa [issuing, State.sleeperNotifications] using notified
      exact absurd (notifying_of_pos pending) (quiet _)

/-- One worker sleeps until the only function is due, and the other one waits. -/
def resting : State Unit where
  clock := 0
  lastIdx := 1
  haveSleeper := true
  work := [⟨5, 1, ()⟩]
  workers := [.sleeping 5, .waiting]
  schedulers := [.done]

theorem resting_reachable : Reachable 2 resting :=
  Runs.replay_reachable
    [.lockWorker 0, .lockWorker 1, .call 5 (), .lockScheduler 0, .notifyScheduler 0 (some 0),
      .lockWorker 0]
    (.start ⟨0, rfl⟩) rfl

theorem no_lost_wakeup_resting :
    ((∃ d, .sleeping d ∈ resting.workers ∧ d ≤ 5) ∧ .waiting ∈ resting.workers) ∧
      resting.haveSleeper = true ∧
      ∃ d, resting.workers.filter Worker.isSleeping = [.sleeping d] ∧ d ≤ 5 := by
  obtain ⟨covered, asleep⟩ := no_lost_wakeup (by decide) resting_reachable rfl
  have waiting : .waiting ∈ resting.workers := by simp [resting]
  refine ⟨⟨?_, waiting⟩, asleep ⟨5, 1, ()⟩ [] rfl (by simp [resting]) (by simp [resting])⟩
  -- Nobody is awake and nothing is about to be signalled, so it is the sleeper that covers 5.
  rcases covered ⟨5, 1, ()⟩ [] rfl waiting with
    ⟨w, member, awake⟩ | notified | ⟨_, early | notified | woken⟩
  · simp only [resting, List.mem_cons, List.not_mem_nil, or_false] at member
    rcases member with rfl | rfl <;> simp at awake
  · simp [resting] at notified
  · exact early
  · simp [resting] at notified
  · simp [resting] at woken

end Hcproxy.ThreadPool
