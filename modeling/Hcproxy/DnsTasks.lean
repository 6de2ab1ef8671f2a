import Hcproxy.Dns

set_option autoImplicit false

namespace Hcproxy.Dns

open Ring (Cursor)
open Threads

variable {κ A : Type} {opt : Options}

theorem State.node_eq_some {s : State κ A} {it : ℕ} {n : Node κ A} :
    s.node it = some n ↔ s.nodes[it]? = some n ∧ n.present = true := by
  simp [State.node, Option.filter_eq_some_iff]

theorem State.find_some {s : State κ A} {host_port : HostPort} {it : ℕ}
    (found : s.find host_port = some it) : ∃ n, s.node it = some n ∧ n.key = host_port := by
  obtain ⟨inside, holds, _⟩ := List.findIdx?_eq_some_iff_getElem.mp found
  simp only [Bool.and_eq_true, beq_iff_eq] at holds
  exact ⟨s.nodes[it], State.node_eq_some.mpr ⟨List.getElem?_eq_getElem inside, holds.1⟩, holds.2⟩

/-- The `ProcessCacheEntry` task that a call of `Resolve` is about to schedule. -/
def Call.task (it : ℕ) : Call κ A → ℕ
  | .scheduling mine _ => if mine = it then 1 else 0
  | _ => 0

/-- The execution of `ProcessCacheEntry` that holds an iterator. -/
def Worker.task (it : ℕ) : Worker κ A → ℕ
  | .locking mine _ | .resolving mine | .resolved mine _ _ | .recording mine _ _ _
  | .calling mine _ _ _ _ _ | .scheduling mine _ => if mine = it then 1 else 0
  | .done | .dangling => 0

/-- The tasks for an entry: about to be scheduled by its creator, scheduled, or running. -/
def State.tasksFor (s : State κ A) (it : ℕ) : ℕ :=
  total (Call.task it) s.calls + total (fun task => if task.2 = it then 1 else 0) s.tasks +
    total (Worker.task it) s.workers

/-- What `ProcessCacheEntry` makes of its node before it drains the queue. -/
def Node.record (n : Node κ A) (lookup : ℕ) (addr : Option (Cursor A)) (now : ℕ) : Node κ A :=
  { n with data := n.data.record addr now, lookups := recordLookup n.lookups lookup now n.uses }

/-- Everything that a step can do, with the conditions under which it does it. A node that is not
mentioned in the new state is unchanged. -/
inductive Moved (opt : Options) (s : State κ A) : Action κ A → State κ A → Prop
  | tick (elapsed : ℕ) : Moved opt s (.tick elapsed) { s with clock := s.clock + elapsed }
  | call {host_port : HostPort} {cb : κ} (fresh : cb ∉ s.issued) :
    Moved opt s (.call host_port cb) { s with
      calls := s.calls ++ [.locking host_port cb s.clock], issued := s.issued ++ [cb] }
  | creates {i now : ℕ} {host_port : HostPort} {cb : κ}
    (found : s.calls[i]? = some (.locking host_port cb now)) (absent : s.find host_port = none) :
    Moved opt s (.lockCall i) { s with
      nodes := s.nodes ++ [{ key := host_port, data := { callbacks := [cb] } }]
      calls := s.calls.set i (.scheduling s.nodes.length now) }
  | queues {i now it : ℕ} {host_port : HostPort} {cb : κ} {n : Node κ A}
    (found : s.calls[i]? = some (.locking host_port cb now))
    (cached : s.find host_port = some it) (node : s.node it = some n)
    (busy : n.data.callbacks ≠ []) :
    Moved opt s (.lockCall i) { s with
      nodes := s.nodes.set it
        { n with data := { n.data with callbacks := n.data.callbacks ++ [cb] } }
      calls := s.calls.set i .done }
  | answers {i now it : ℕ} {host_port : HostPort} {cb : κ} {n : Node κ A}
    (found : s.calls[i]? = some (.locking host_port cb now))
    (cached : s.find host_port = some it) (node : s.node it = some n)
    (idle : n.data.callbacks = []) :
    Moved opt s (.lockCall i) { s with
      nodes := s.nodes.set it { n with data := n.data.use now, uses := n.uses + 1 }
      calls := s.calls.set i (.calling ⟨cb,
        if now < Clock.add n.data.successfully_resolved_at opt.dns_cache_ttl then n.data.addr
        else none, it, n.uses, now, n.lookups⟩) }
  | schedules {i it now : ℕ} (found : s.calls[i]? = some (.scheduling it now)) :
    Moved opt s (.scheduleCall i)
      { s with tasks := s.tasks ++ [((now : ℤ), it)], calls := s.calls.set i .done }
  | calls {i : ℕ} {answer : Answer κ A} (found : s.calls[i]? = some (.calling answer)) :
    Moved opt s (.answerCall i)
      { s with answers := s.answers ++ [answer], calls := s.calls.set i .done }
  | starts {k it : ℕ} {t : ℤ} (found : s.tasks[k]? = some (t, it)) (due : t ≤ s.clock) :
    Moved opt s (.start k)
      { s with tasks := s.tasks.eraseIdx k, workers := s.workers ++ [.locking it s.clock] }
  | erases {j it now : ℕ} {n : Node κ A} (found : s.workers[j]? = some (.locking it now))
    (node : s.node it = some n) (empty : n.data.callbacks = [])
    (unused : Clock.add n.data.used_at opt.dns_cache_refresh_duration ≤ now) :
    Moved opt s (.lockWorker j) { s with
      nodes := s.nodes.set it { n with present := false }, workers := s.workers.set j .done }
  | looksUp {j it now : ℕ} {n : Node κ A} (found : s.workers[j]? = some (.locking it now))
    (node : s.node it = some n)
    (stale : Clock.add n.data.resolved_at opt.dns_cache_refresh_period ≤ now) :
    Moved opt s (.lockWorker j) { s with workers := s.workers.set j (.resolving it) }
  | skips {j it now : ℕ} {n : Node κ A} (found : s.workers[j]? = some (.locking it now))
    (node : s.node it = some n)
    (recent : now < Clock.add n.data.resolved_at opt.dns_cache_refresh_period) :
    Moved opt s (.lockWorker j) { s with
      nodes := s.nodes.set it (drain opt it n now).2
      workers := s.workers.set j (drain opt it n now).1 }
  | returns {j it : ℕ} {n : Node κ A} (found : s.workers[j]? = some (.resolving it))
    (node : s.node it = some n) (result : Option { items : List A // items ≠ [] }) :
    Moved opt s (.returnResolve j result) { s with
      nodes := s.nodes.set it { n with lookups := n.lookups ++
        [⟨s.clock, result.map fun items => Cursor.head items.1 items.2, none, 0⟩] }
      workers := s.workers.set j (.resolved it n.lookups.length
        (result.map fun items => Cursor.head items.1 items.2)) }
  | reads {j it lookup : ℕ} {addr : Option (Cursor A)}
    (found : s.workers[j]? = some (.resolved it lookup addr)) :
    Moved opt s (.readClock j)
      { s with workers := s.workers.set j (.recording it lookup addr s.clock) }
  | records {j it lookup now : ℕ} {addr : Option (Cursor A)} {n : Node κ A}
    (found : s.workers[j]? = some (.recording it lookup addr now)) (node : s.node it = some n) :
    Moved opt s (.lockRecord j) { s with
      nodes := s.nodes.set it (drain opt it (n.record lookup addr now) now).2
      workers := s.workers.set j (drain opt it (n.record lookup addr now) now).1 }
  | callsBack {j it index now : ℕ} {cb : κ} {rest : List κ} {addr : Option (Cursor A)}
    {seen : List (Lookup A)}
    (found : s.workers[j]? = some (.calling it (cb :: rest) addr index now seen)) :
    Moved opt s (.callback j) { s with
      answers := s.answers ++ [⟨cb, addr, it, index, now, seen⟩]
      workers := s.workers.set j (.calling it rest (advance addr) (index + 1) now seen) }
  | relocks {j it index now : ℕ} {addr : Option (Cursor A)} {seen : List (Lookup A)}
    {n : Node κ A} (found : s.workers[j]? = some (.calling it [] addr index now seen))
    (node : s.node it = some n) :
    Moved opt s (.relock j)
      { s with workers := s.workers.set j (.scheduling it (n.data.next opt)) }
  | reschedules {j it : ℕ} {next : ℤ} (found : s.workers[j]? = some (.scheduling it next)) :
    Moved opt s (.schedule j)
      { s with tasks := s.tasks ++ [(next, it)], workers := s.workers.set j .done }
  | dangles {a : Action κ A} {j it : ℕ} {w : Worker κ A} (found : s.workers[j]? = some w)
    (uses : w.task it = 1) (erased : s.node it = none) :
    Moved opt s a { s with workers := s.workers.set j .dangling }

/-- The clock never goes back. -/
theorem clock_of_moved {s t : State κ A} {a : Action κ A} (moved : Moved opt s a t) :
    s.clock ≤ t.clock := by
  cases moved with
  | tick elapsed => exact Nat.le_add_right _ _
  | _ => exact Nat.le_refl _

theorem set_same {s : State κ A} {it : ℕ} {n : Node κ A} (node : s.node it = some n) :
    s.nodes.set it n = s.nodes := by
  obtain ⟨found, _⟩ := State.node_eq_some.mp node
  obtain ⟨inside, rfl⟩ := List.getElem?_eq_some_iff.mp found
  exact List.set_getElem_self inside

theorem getElem?_written {s : State κ A} {it : ℕ} {n m : Node κ A} (node : s.node it = some n) :
    (s.nodes.set it m)[it]? = some m := by
  obtain ⟨found, -⟩ := State.node_eq_some.mp node
  obtain ⟨inside, -⟩ := List.getElem?_eq_some_iff.mp found
  simp [inside]

section Inversion

variable [DecidableEq κ]

theorem lockCall_cases {s t : State κ A} {i : ℕ} (stepped : step opt s (.lockCall i) = some t) :
    Moved opt s (.lockCall i) t := by
  simp only [step] at stepped
  split at stepped
  case h_2 => cases stepped
  case h_1 host_port cb now found =>
    obtain rfl := Option.some.inj stepped
    unfold resolve
    cases cached : s.find host_port with
    | none => exact .creates found cached
    | some it =>
        obtain ⟨n, node, _⟩ := State.find_some cached
        simp only [(State.node_eq_some.mp node).1]
        by_cases idle : n.data.callbacks = []
        · simpa [idle] using Moved.answers found cached node idle
        · simpa [idle] using Moved.queues found cached node idle

theorem lockWorker_cases {s t : State κ A} {j : ℕ}
    (stepped : step opt s (.lockWorker j) = some t) : Moved opt s (.lockWorker j) t := by
  simp only [step] at stepped
  split at stepped
  case h_2 => cases stepped
  case h_1 it now found =>
    cases node : s.node it with
    | none =>
        simp only [node, Option.some.injEq] at stepped
        subst stepped
        exact .dangles found (by simp [Worker.task]) node
    | some n =>
        simp only [node, Option.some.injEq] at stepped
        subst stepped
        unfold process
        by_cases erase : n.data.callbacks = [] ∧
            Clock.add n.data.used_at opt.dns_cache_refresh_duration ≤ now
        · simpa [erase] using Moved.erases found node erase.1 erase.2
        · by_cases stale : Clock.add n.data.resolved_at opt.dns_cache_refresh_period ≤ now
          · simpa [erase, stale, set_same node] using Moved.looksUp found node stale
          · simpa [erase, stale] using Moved.skips found node (by omega)

theorem step_cases {s t : State κ A} {a : Action κ A} (stepped : step opt s a = some t) :
    Moved opt s a t := by
  cases a with
  | tick elapsed =>
      cases stepped
      exact .tick elapsed
  | call host_port cb =>
      simp only [step] at stepped
      split at stepped
      · cases stepped
      · rename_i fresh
        cases stepped
        exact .call fresh
  | lockCall i => exact lockCall_cases stepped
  | scheduleCall i =>
      simp only [step] at stepped
      split at stepped
      · rename_i found
        cases stepped
        exact .schedules found
      · cases stepped
  | answerCall i =>
      simp only [step] at stepped
      split at stepped
      · rename_i found
        cases stepped
        exact .calls found
      · cases stepped
  | start k =>
      simp only [step] at stepped
      split at stepped
      · rename_i found
        split at stepped
        · rename_i due
          cases stepped
          exact .starts found due
        · cases stepped
      · cases stepped
  | lockWorker j => exact lockWorker_cases stepped
  | returnResolve j result =>
      simp only [step] at stepped
      split at stepped
      · rename_i it found
        split at stepped
        · rename_i n node
          cases stepped
          exact .returns found node result
        · rename_i erased
          cases stepped
          exact .dangles found (by simp [Worker.task]) erased
      · cases stepped
  | readClock j =>
      simp only [step] at stepped
      split at stepped
      · rename_i found
        cases stepped
        exact .reads found
      · cases stepped
  | lockRecord j =>
      simp only [step] at stepped
      split at stepped
      · rename_i it lookup addr now found
        split at stepped
        · rename_i n node
          cases stepped
          exact .records found node
        · rename_i erased
          cases stepped
          exact .dangles found (by simp [Worker.task]) erased
      · cases stepped
  | callback j =>
      simp only [step] at stepped
      split at stepped
      · rename_i found
        cases stepped
        exact .callsBack found
      · cases stepped
  | relock j =>
      simp only [step] at stepped
      split at stepped
      · rename_i it _ _ _ _ found
        split at stepped
        · rename_i n node
          cases stepped
          exact .relocks found node
        · rename_i erased
          cases stepped
          exact .dangles found (by simp [Worker.task]) erased
      · cases stepped
  | schedule j =>
      simp only [step] at stepped
      split at stepped
      · rename_i found
        cases stepped
        exact .reschedules found
      · cases stepped

end Inversion

@[simp] theorem use_callbacks (data : CacheData κ A) (now : ℕ) :
    (data.use now).callbacks = data.callbacks := rfl

@[simp] theorem use_iterate_callbacks (data : CacheData κ A) (now k : ℕ) :
    ((CacheData.use · now)^[k] data).callbacks = data.callbacks := by
  induction k generalizing data with
  | zero => rfl
  | succ k ih => exact ih (data.use now)

@[simp] theorem record_callbacks (data : CacheData κ A) (addr : Option (Cursor A)) (now : ℕ) :
    (data.record addr now).callbacks = data.callbacks := by
  cases addr <;> rfl

@[simp] theorem drain_present (it : ℕ) (n : Node κ A) (now : ℕ) :
    (drain opt it n now).2.present = n.present := by
  unfold drain
  split <;> rfl

theorem drain_key (it : ℕ) (n : Node κ A) (now : ℕ) : (drain opt it n now).2.key = n.key := by
  unfold drain
  split <;> rfl

@[simp] theorem drain_task (it : ℕ) (n : Node κ A) (now i : ℕ) :
    (drain opt it n now).1.task i = if it = i then 1 else 0 := by
  unfold drain
  split <;> rfl

theorem node_append {s t : State κ A} {n : Node κ A} (nodes : t.nodes = s.nodes ++ [n])
    (present : n.present = true) (i : ℕ) :
    t.node i = if i = s.nodes.length then some n else s.node i := by
  simp only [State.node, nodes, List.getElem?_append, List.getElem?_singleton]
  rcases Nat.lt_trichotomy i s.nodes.length with before | rfl | after
  · simp [before, Nat.ne_of_lt before]
  · simp [present]
  · have : i - s.nodes.length ≠ 0 := by omega
    simp [Nat.not_lt_of_gt after, Nat.ne_of_gt after, this]

theorem node_set {s t : State κ A} {it : ℕ} {n m : Node κ A} (nodes : t.nodes = s.nodes.set it m)
    (node : s.node it = some n) (i : ℕ) :
    t.node i = if i = it then (if m.present = true then some m else none) else s.node i := by
  obtain ⟨found, _⟩ := State.node_eq_some.mp node
  obtain ⟨inside, _⟩ := List.getElem?_eq_some_iff.mp found
  simp only [State.node, nodes, List.getElem?_set]
  by_cases same : it = i
  · subst same
    simp [inside, Option.filter]
  · simp [same, Ne.symm same]

/-- The entry of a node that is written to stays in `cache_`. -/
theorem isSome_set {s t : State κ A} {it : ℕ} {n m : Node κ A}
    (nodes : t.nodes = s.nodes.set it m) (node : s.node it = some n)
    (present : m.present = n.present) (i : ℕ) : (t.node i).isSome = (s.node i).isSome := by
  rw [node_set nodes node, present, (State.node_eq_some.mp node).2]
  by_cases same : i = it <;> simp [same, node]

/-- One task for each entry of `cache_` and none for an entry that has been erased. -/
def SingleTask (s : State κ A) : Prop := ∀ it, s.tasksFor it = (s.node it).isSome.toNat

/-- A worker that holds an iterator finds the entry in `cache_`. -/
theorem SingleTask.node_ne_none {s : State κ A} {j it : ℕ} {w : Worker κ A} (single : SingleTask s)
    (found : s.workers[j]? = some w) (uses : w.task it = 1) : s.node it ≠ none := by
  intro erased
  have none := single it
  have some := weight_le_total (Worker.task it) (List.mem_of_getElem? found)
  simp only [State.tasksFor, erased, Option.isSome_none, Bool.toNat_false] at none
  omega

theorem singleTask_kept {s t : State κ A} {a : Action κ A} (single : SingleTask s)
    (moved : Moved opt s a t) : SingleTask t := by
  intro i
  have before := single i
  simp only [State.tasksFor] at before ⊢
  cases moved with
  | tick elapsed => exact before
  | call fresh =>
      simp only [total_append, total_cons, total_nil, Call.task]
      exact before
  | @creates c now host_port cb found absent =>
      have calls := total_set (Call.task i) (.scheduling s.nodes.length now) found
      simp only [Call.task] at calls
      rw [node_append (s := s) rfl rfl i]
      have outside : s.node s.nodes.length = none := by simp [State.node]
      by_cases new : i = s.nodes.length
      · subst new
        simp only [outside, Option.isSome_none, Bool.toNat_false, ↓reduceIte, Option.isSome_some,
          Bool.toNat_true] at before calls ⊢
        omega
      · simp only [Ne.symm new, new, ↓reduceIte] at calls ⊢
        omega
  | queues found cached node busy =>
      have calls := total_set (Call.task i) .done found
      simp only [Call.task] at calls
      rw [isSome_set (s := s) rfl node (by rfl)]
      dsimp only
      omega
  | answers found cached node idle =>
      rename_i now it host_port cb n
      have calls := total_set (Call.task i) (.calling ⟨cb,
        if now < Clock.add n.data.successfully_resolved_at opt.dns_cache_ttl then n.data.addr
        else none, it, n.uses, now, n.lookups⟩) found
      simp only [Call.task] at calls
      rw [isSome_set (s := s) rfl node (by rfl)]
      dsimp only
      omega
  | schedules found =>
      have calls := total_set (Call.task i) .done found
      simp only [Call.task] at calls
      simp only [total_append, total_cons, total_nil]
      change _ = (s.node i).isSome.toNat
      omega
  | calls found =>
      have calls := total_set (Call.task i) .done found
      simp only [Call.task] at calls
      change _ = (s.node i).isSome.toNat
      dsimp only
      omega
  | starts found due =>
      have tasks := total_eraseIdx (fun task => if task.2 = i then 1 else 0) found
      dsimp only at tasks
      simp only [total_append, total_cons, total_nil, Worker.task]
      change _ = (s.node i).isSome.toNat
      omega
  | @erases j it now n found node empty unused =>
      have workers := total_set (Worker.task i) .done found
      simp only [Worker.task] at workers
      rw [node_set (s := s) rfl node]
      by_cases mine : i = it
      · subst mine
        simp only [node, Option.isSome_some, Bool.toNat_true, ↓reduceIte, Bool.false_eq_true,
          Option.isSome_none, Bool.toNat_false] at before workers ⊢
        omega
      · simp only [mine, Ne.symm mine, ↓reduceIte] at workers ⊢
        omega
  | @looksUp j it now n found node stale =>
      have workers := total_set (Worker.task i) (.resolving it) found
      simp only [Worker.task] at workers
      change _ = (s.node i).isSome.toNat
      dsimp only
      omega
  | @skips j it now n found node recent =>
      have workers := total_set (Worker.task i) (drain opt it n now).1 found
      rw [drain_task] at workers
      simp only [Worker.task] at workers
      rw [isSome_set (s := s) rfl node (drain_present it n now)]
      dsimp only
      omega
  | @returns j it n found node result =>
      have workers := total_set (Worker.task i) (.resolved it n.lookups.length
        (result.map fun items => Cursor.head items.1 items.2)) found
      simp only [Worker.task] at workers
      rw [isSome_set (s := s) rfl node (by rfl)]
      dsimp only
      omega
  | @reads j it lookup addr found =>
      have workers := total_set (Worker.task i) (.recording it lookup addr s.clock) found
      simp only [Worker.task] at workers
      change _ = (s.node i).isSome.toNat
      dsimp only
      omega
  | @records j it lookup now addr n found node =>
      have workers := total_set (Worker.task i)
        (drain opt it (n.record lookup addr now) now).1 found
      rw [drain_task] at workers
      simp only [Worker.task] at workers
      rw [isSome_set (s := s) rfl node (drain_present it (n.record lookup addr now) now)]
      dsimp only
      omega
  | @callsBack j it index now cb rest addr seen found =>
      have workers := total_set (Worker.task i)
        (.calling it rest (advance addr) (index + 1) now seen) found
      simp only [Worker.task] at workers
      change _ = (s.node i).isSome.toNat
      dsimp only
      omega
  | @relocks j it index now addr seen n found node =>
      have workers := total_set (Worker.task i) (.scheduling it (n.data.next opt)) found
      simp only [Worker.task] at workers
      change _ = (s.node i).isSome.toNat
      dsimp only
      omega
  | reschedules found =>
      have workers := total_set (Worker.task i) .done found
      simp only [Worker.task] at workers
      simp only [total_append, total_cons, total_nil]
      change _ = (s.node i).isSome.toNat
      omega
  | dangles found uses erased => exact absurd erased (single.node_ne_none found uses)

theorem init_singleTask {s : State κ A} (init : Init s) : SingleTask s := by
  obtain ⟨clock, rfl⟩ := init
  intro it
  simp [State.tasksFor, State.node]

variable [DecidableEq κ]

theorem ReachableIf.singleTask {allowed : State κ A → Action κ A → Prop} {s : State κ A}
    (reach : ReachableIf opt allowed s) : SingleTask s := by
  refine Runs.Reachable.invariant (I := SingleTask) (fun _ => init_singleTask) ?_ reach
  rintro s t single ⟨a, _, stepped⟩
  exact singleTask_kept single (step_cases stepped)

end Hcproxy.Dns
