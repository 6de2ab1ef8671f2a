import Hcproxy.DnsRetention
import Hcproxy.DnsSingleFlight
import Hcproxy.DnsWaiting
import Hcproxy.Lib.Budgets

set_option autoImplicit false

namespace Hcproxy.Dns

open Ring (Cursor)
open Threads

variable {κ A : Type} {opt : Options}

/-- The steps of the resolver itself, and of `getaddrinfo`, which returns. -/
def Action.inner : Action κ A → Prop
  | .tick _ | .call _ _ => False
  | _ => True

/-- The steps of an execution of `ProcessCacheEntry` from when a thread takes its task on, except
for the calls of callbacks. -/
def execution : ℕ := 7

def Call.cost : Call κ A → ℕ
  | .locking _ _ _ => execution + 3
  | .scheduling _ _ => execution + 1
  | .calling _ => 1
  | .done => 0

def taskCost (clock : ℕ) (task : ℤ × ℕ) : ℕ := if task.1 ≤ clock then execution else 0

/-- The next execution erases the entry. -/
def CacheData.expired (opt : Options) (clock : ℕ) (c : CacheData κ A) : Bool :=
  c.callbacks.isEmpty && decide (Clock.add c.used_at opt.dns_cache_refresh_duration ≤ clock)

/-- The execution may schedule the next one for a time that has come already: because it has read
the clock before, or for the entry to be erased. -/
def Worker.again (opt : Options) (s : State κ A) : Worker κ A → Bool
  | .locking _ now => decide (now < s.clock)
  | .resolving it | .resolved it _ _ => (s.node it).any (·.data.expired opt s.clock)
  | .recording it _ _ now =>
    decide (now < s.clock) || (s.node it).any (·.data.expired opt s.clock)
  | .calling it _ _ _ _ _ => (s.node it).any fun n => decide (n.data.next opt ≤ (s.clock : ℤ))
  | .scheduling _ next => decide (next ≤ s.clock)
  | .done | .dangling => false

/-- The steps that are left of an execution. -/
def Worker.left : Worker κ A → ℕ
  | .locking _ _ => 6
  | .resolving _ => 5
  | .resolved _ _ _ => 4
  | .recording _ _ _ _ => 3
  | .calling _ callbacks _ _ _ _ => 2 + callbacks.length
  | .scheduling _ _ => 1
  | .done | .dangling => 0

def Worker.cost (opt : Options) (s : State κ A) (w : Worker κ A) : ℕ :=
  w.left + if w.again opt s then execution else 0

def Node.cost (n : Node κ A) : ℕ := n.data.callbacks.length

/-- The steps that the resolver can make at most before it rests. -/
def State.budget (opt : Options) (s : State κ A) : ℕ :=
  total Call.cost s.calls + total (taskCost s.clock) s.tasks + total (Worker.cost opt s) s.workers +
    total Node.cost s.nodes

/-- The execution has taken the queue of its entry. -/
def Worker.finishing : Worker κ A → Option ℕ
  | .calling it _ _ _ _ _ | .scheduling it _ => some it
  | _ => none

/-- What is planned for one of these durations after a reading of the clock is planned for later
than it: both are positive, and no sum with a reading up to `clock` overflows. -/
structure Options.Spaced (opt : Options) (clock : ℕ) : Prop where
  period : 0 < opt.dns_cache_refresh_period
  duration : 0 < opt.dns_cache_refresh_duration
  period_fits : Clock.Fits clock opt.dns_cache_refresh_period
  duration_fits : Clock.Fits clock opt.dns_cache_refresh_duration

/-- Readings of the clock are not from the future, and what has callbacks in its queue is due. -/
structure Current (s : State κ A) : Prop where
  arriving : ∀ host_port cb now, .locking host_port cb now ∈ s.calls → now ≤ s.clock
  created : ∀ it now, .scheduling it now ∈ s.calls → now ≤ s.clock
  due : ∀ time it n, (time, it) ∈ s.tasks → s.node it = some n → n.data.callbacks ≠ [] →
    time ≤ s.clock
  taken : ∀ w ∈ s.workers, ∀ it n, w.finishing = some it → s.node it = some n →
    n.data.callbacks = []
  used : ∀ n ∈ s.nodes, n.data.used_at ≤ s.clock

section Step

variable {s t : State κ A} {a : Action κ A}

theorem Worker.task_of_finishing {w : Worker κ A} {it : ℕ} (holds : w.finishing = some it) :
    w.task it = 1 := by
  cases w <;> simp_all [Worker.finishing, Worker.task]

/-- What has been taken stays taken, and no execution takes the queue of another one. -/
theorem node_drained (ages : Ages s.nodes t.nodes) {it : ℕ} {n m : Node κ A}
    (before : s.node it = some n) (after : t.node it = some m) (drained : n.data.callbacks = []) :
    m.data.callbacks = [] := by
  obtain ⟨k, found, older⟩ := ages it n (State.node_eq_some.mp before).1
  cases Option.some.inj (found.symm.trans (State.node_eq_some.mp after).1)
  exact older.drained drained

theorem drain_finishing (it : ℕ) (n : Node κ A) (now i : ℕ) :
    (drain opt it n now).1.finishing = some i → i = it := by
  unfold drain
  split
  all_goals
    intro same
    exact (Option.some.inj same).symm

/-- Nothing is in a queue that an execution has taken. -/
theorem taken_kept (single : SingleTask s) (ages : Ages s.nodes t.nodes) (current : Current s)
    (moved : Moved opt s a t) :
    ∀ w ∈ t.workers, ∀ it n, w.finishing = some it → t.node it = some n → n.data.callbacks = [] := by
  have stays : ∀ w ∈ s.workers, ∀ it n, w.finishing = some it → t.node it = some n →
      n.data.callbacks = [] := by
    intro w member it n finishing after
    obtain ⟨j, found⟩ := List.mem_iff_getElem?.mp member
    obtain ⟨m, before⟩ := Option.ne_none_iff_exists'.mp
      (single.node_ne_none found (Worker.task_of_finishing finishing))
    exact node_drained ages before after (current.taken w member it m finishing before)
  have moves : ∀ {j : ℕ} {y : Worker κ A}, t.workers = s.workers.set j y →
      (∀ it n, y.finishing = some it → t.node it = some n → n.data.callbacks = []) →
      ∀ w ∈ t.workers, ∀ it n, w.finishing = some it → t.node it = some n →
        n.data.callbacks = [] := by
    intro j y workers ok w member
    rw [workers] at member
    rcases mem_set member with rfl | member
    · exact ok
    · exact stays w member
  have drained : ∀ {j it now : ℕ} {n m : Node κ A}, s.node it = some n →
      t.nodes = s.nodes.set it (drain opt it m now).2 →
      t.workers = s.workers.set j (drain opt it m now).1 →
      ∀ w ∈ t.workers, ∀ it n, w.finishing = some it → t.node it = some n →
        n.data.callbacks = [] := by
    intro j it now n m node nodes workers
    refine moves workers ?_
    intro i k finishing after
    obtain rfl := drain_finishing it m now i finishing
    rw [node_set nodes node, if_pos rfl] at after
    split at after
    · cases after
      exact drain_idle i m now
    · cases after
  cases moved with
  | tick | call | creates | queues | answers | schedules | calls => exact stays
  | starts found due =>
      intro w member
      rcases List.mem_append.mp member with member | member
      · exact stays w member
      · cases List.mem_singleton.mp member
        intro it n finishing
        cases finishing
  | erases | looksUp | returns | reads | reschedules => exact moves rfl nofun
  | skips found node recent => exact drained node rfl rfl
  | records found node => exact drained node rfl rfl
  | callsBack found =>
      refine moves rfl ?_
      intro i k finishing after
      cases finishing
      exact stays _ (List.mem_of_getElem? found) _ k rfl after
  | relocks found node =>
      refine moves rfl ?_
      intro i k finishing after
      cases finishing
      exact stays _ (List.mem_of_getElem? found) _ k rfl after
  | dangles found uses erased => exact absurd erased (single.node_ne_none found uses)

theorem queued_due (single : SingleTask s) (ages : Ages s.nodes t.nodes) (current : Current s)
    (moved : Moved opt s a t) : ∀ time it n, (time, it) ∈ t.tasks → t.node it = some n →
      n.data.callbacks ≠ [] → time ≤ t.clock := by
  have clock := clock_of_moved moved
  have stays : ∀ time it n, (time, it) ∈ s.tasks → t.node it = some n →
      n.data.callbacks ≠ [] → time ≤ t.clock := by
    intro time it n member after queued
    have alive : s.node it ≠ none := by
      intro erased
      have none := single it
      have one := weight_le_total (fun task : ℤ × ℕ => if task.2 = it then 1 else 0) member
      simp only [State.tasksFor, erased, Option.isSome_none, Bool.toNat_false, ↓reduceIte] at none one
      omega
    obtain ⟨m, before⟩ := Option.ne_none_iff_exists'.mp alive
    have busy : m.data.callbacks ≠ [] := fun empty => queued (node_drained ages before after empty)
    exact Int.le_trans (current.due time it m member before busy) (Int.ofNat_le.mpr clock)
  cases moved with
  | schedules found =>
      intro time it n member after queued
      rcases List.mem_append.mp member with member | member
      · exact stays time it n member after queued
      · cases List.mem_singleton.mp member
        exact Int.ofNat_le.mpr (current.created _ _ (List.mem_of_getElem? found))
  | reschedules found =>
      intro time it n member after queued
      rcases List.mem_append.mp member with member | member
      · exact stays time it n member after queued
      · cases List.mem_singleton.mp member
        exact absurd (current.taken _ (List.mem_of_getElem? found) _ n rfl after) queued
  | starts found due =>
      exact fun time it n member => stays time it n (List.mem_of_mem_eraseIdx member)
  | dangles found uses erased => exact absurd erased (single.node_ne_none found uses)
  | _ => exact stays

theorem use_iterate_used_at_le (data : CacheData κ A) {now bound : ℕ} (used : data.used_at ≤ bound)
    (reading : now ≤ bound) (k : ℕ) : ((CacheData.use · now)^[k] data).used_at ≤ bound := by
  induction k generalizing data with
  | zero => exact used
  | succ k ih => exact ih (data.use now) (Nat.max_le.mpr ⟨used, reading⟩)

theorem drain_used_at_le {it now bound : ℕ} {n : Node κ A} (used : n.data.used_at ≤ bound)
    (reading : now ≤ bound) : (drain opt it n now).2.data.used_at ≤ bound := by
  unfold drain
  split
  · exact used
  · exact use_iterate_used_at_le { n.data with callbacks := [] } used reading _

theorem used_kept (history : History s) (planned : ∀ w ∈ s.workers, w.Planned opt s)
    (current : Current s) (moved : Moved opt s a t) : ∀ n ∈ t.nodes, n.data.used_at ≤ t.clock := by
  have written : ∀ {it : ℕ} {m : Node κ A}, m.data.used_at ≤ s.clock →
      ∀ n ∈ s.nodes.set it m, n.data.used_at ≤ s.clock := by
    intro it m used n member
    rcases mem_set member with rfl | member
    · exact used
    · exact current.used n member
  have earlier : ∀ {it : ℕ} {n : Node κ A}, s.node it = some n → n.data.used_at ≤ s.clock :=
    fun node => current.used _ (List.mem_of_getElem? (State.node_eq_some.mp node).1)
  cases moved with
  | tick elapsed => exact fun n member => Nat.le_add_right_of_le (current.used n member)
  | creates found absent =>
      intro n member
      rcases List.mem_append.mp member with member | member
      · exact current.used n member
      · cases List.mem_singleton.mp member
        exact Nat.zero_le _
  | queues _ _ node | erases _ node | returns _ node =>
      have same := earlier node
      exact written same
  | answers found cached node idle =>
      have reading := current.arriving _ _ _ (List.mem_of_getElem? found)
      exact written (Nat.max_le.mpr ⟨earlier node, reading⟩)
  | skips found node recent =>
      have reading := planned _ (List.mem_of_getElem? found)
      exact written (drain_used_at_le (earlier node) reading)
  | @records j it lookup now addr n found node =>
      have reading := (history.awaits _ (List.mem_of_getElem? found)).1
      have used : (n.record lookup addr now).data.used_at ≤ s.clock := by
        simpa [Node.record] using earlier node
      exact written (drain_used_at_le used reading)
  | _ => exact current.used

theorem current_kept (single : SingleTask s) (history : History s)
    (planned : ∀ w ∈ s.workers, w.Planned opt s) (ages : Ages s.nodes t.nodes)
    (current : Current s) (moved : Moved opt s a t) : Current t := by
  refine ⟨arriving_kept current.arriving moved, ?_, queued_due single ages current moved,
    taken_kept single ages current moved, used_kept history planned current moved⟩
  intro it now member
  have others : ∀ {i : ℕ} {y : Call κ A}, .scheduling it now ∈ s.calls.set i y →
      y ≠ .scheduling it now → now ≤ s.clock := by
    intro i y member different
    rcases mem_set member with same | member
    · exact absurd same.symm different
    · exact current.created _ _ member
  cases moved with
  | tick elapsed => exact Nat.le_add_right_of_le (current.created _ _ member)
  | call fresh =>
      rcases List.mem_append.mp member with member | member
      · exact current.created _ _ member
      · cases List.mem_singleton.mp member
  | creates found absent =>
      rcases mem_set member with same | member
      · cases same
        exact current.arriving _ _ _ (List.mem_of_getElem? found)
      · exact current.created _ _ member
  | queues | answers | schedules | calls => exact others member nofun
  | _ => exact current.created _ _ member

theorem init_current (init : Init s) : Current s := by
  obtain ⟨clock, rfl⟩ := init
  exact ⟨nofun, nofun, nofun, nofun, nofun⟩

/-- The other executions have other entries. -/
theorem cost_other {w : Worker κ A} {it : ℕ} (other : w.task it = 0) (clock : t.clock = s.clock)
    (nodes : ∀ i, i ≠ it → t.node i = s.node i) : w.cost opt t = w.cost opt s := by
  have same : w.again opt t = w.again opt s := by
    cases w with
    | locking | scheduling | done | dangling => simp only [Worker.again, clock]
    | resolving mine | resolved mine | recording mine | calling mine =>
        have apart : mine ≠ it := by
          rintro rfl
          simp [Worker.task] at other
        simp only [Worker.again, clock, nodes mine apart]
  rw [Worker.cost, Worker.cost, same]

theorem cost_le {w : Worker κ A} {P : Prop} [Decidable P] (again : w.again opt s = true → P) :
    w.cost opt s ≤ w.left + if P then execution else 0 := by
  unfold Worker.cost
  cases came : w.again opt s with
  | false => simp
  | true => simp [again came]

/-- An entry that is used is not due earlier. -/
structure Node.Later (opt : Options) (n m : Node κ A) : Prop where
  expired : ∀ clock, m.data.expired opt clock = true → n.data.expired opt clock = true
  next : n.data.next opt ≤ m.data.next opt

theorem cost_later {w : Worker κ A} {it : ℕ} {n m : Node κ A} (before : s.node it = some n)
    (after : t.node it = some m) (later : n.Later opt m) (clock : t.clock = s.clock)
    (nodes : ∀ i, i ≠ it → t.node i = s.node i) : w.cost opt t ≤ w.cost opt s := by
  have again : w.again opt t = true → w.again opt s = true := by
    cases w with
    | locking | scheduling | done | dangling => simp only [Worker.again, clock, imp_self]
    | resolving mine | resolved mine =>
        by_cases same : mine = it
        · subst same
          simp only [Worker.again, before, after, clock, Option.any_some]
          exact later.expired s.clock
        · simp only [Worker.again, clock, nodes mine same, imp_self]
    | recording mine lookup addr now =>
        by_cases same : mine = it
        · subst same
          simp only [Worker.again, before, after, clock, Option.any_some, Bool.or_eq_true]
          exact Or.imp_right (later.expired s.clock)
        · simp only [Worker.again, clock, nodes mine same, imp_self]
    | calling mine =>
        by_cases same : mine = it
        · subst same
          simp only [Worker.again, before, after, clock, Option.any_some, decide_eq_true_eq]
          exact Int.le_trans later.next
        · simp only [Worker.again, clock, nodes mine same, imp_self]
  exact cost_le again

/-- What an execution costs that has given up the lock, having drained the queue. -/
theorem drain_cost {it now : ℕ} {n : Node κ A} (spaced : opt.Spaced t.clock)
    (node : t.node it = some (drain opt it n now).2) (past : now ≤ t.clock)
    (used : n.data.used_at ≤ t.clock)
    (recent : now < Clock.add n.data.resolved_at opt.dns_cache_refresh_period) :
    (drain opt it n now).1.cost opt t ≤ 2 + n.cost +
      if now < t.clock ∨ n.data.expired opt t.clock = true then execution else 0 := by
  by_cases empty : n.data.callbacks = []
  · have same : drain opt it n now = (.scheduling it (n.data.next opt), n) := by
      unfold drain
      rw [if_pos empty]
    have again : (Worker.scheduling it (n.data.next opt) : Worker κ A).again opt t = true →
        now < t.clock ∨ n.data.expired opt t.clock = true := by
      intro early
      have early : n.data.next opt ≤ t.clock := of_decide_eq_true early
      simp only [CacheData.expired, empty, List.isEmpty_nil, Bool.true_and, decide_eq_true_eq]
      unfold CacheData.next at early
      omega
    rw [same]
    refine Nat.le_trans (cost_le again) (Nat.add_le_add_right ?_ _)
    exact Nat.le_add_right_of_le (Nat.le_succ 1)
  · have same : drain opt it n now =
        (.calling it n.data.callbacks n.data.addr n.uses now n.lookups, (drain opt it n now).2) := by
      unfold drain
      rw [if_neg empty]
    have taken : now ≤ (drain opt it n now).2.data.used_at := le_drain_used_at empty
    have reading : (drain opt it n now).2.data.used_at ≤ t.clock := drain_used_at_le used past
    have after := Clock.lt_add (spaced.duration_fits.earlier reading) spaced.duration
    have resolved : (drain opt it n now).2.data.resolved_at = n.data.resolved_at :=
      drain_resolved_at it n now
    have again : (Worker.calling it n.data.callbacks n.data.addr n.uses now n.lookups).again opt t =
        true → now < t.clock ∨ n.data.expired opt t.clock = true := by
      simp only [Worker.again, node, Option.any_some, decide_eq_true_eq]
      intro early
      rw [CacheData.next, resolved] at early
      omega
    rw [same]
    exact cost_le again

/-- A worker moves on, and the entry of no other one is written to. -/
theorem workers_cost (single : SingleTask s) {j it : ℕ} {w y : Worker κ A}
    (found : s.workers[j]? = some w) (mine : w.task it = 1) (clock : t.clock = s.clock)
    (nodes : ∀ i, i ≠ it → t.node i = s.node i) (workers : t.workers = s.workers.set j y) :
    total (Worker.cost opt t) t.workers + w.cost opt s ≤
      total (Worker.cost opt s) s.workers + y.cost opt t := by
  rw [workers]
  refine total_set_le y found fun v member => ?_
  exact Nat.le_of_eq (cost_other (single.others found mine member) clock nodes)

theorem node_other {it : ℕ} {n m : Node κ A} (node : s.node it = some n)
    (nodes : t.nodes = s.nodes.set it m) : ∀ i, i ≠ it → t.node i = s.node i := by
  intro i other
  rw [node_set nodes node, if_neg other]

theorem node_self {it : ℕ} {n m : Node κ A} (node : s.node it = some n)
    (nodes : t.nodes = s.nodes.set it m) (present : m.present = n.present) :
    t.node it = some m := by
  rw [node_set nodes node, if_pos rfl, present, (State.node_eq_some.mp node).2]
  rfl

/-- An execution that has seen an entry with nothing to do for it does not go on. -/
theorem unexpired_of_lockWorker [DecidableEq κ] {j it now : ℕ} {n : Node κ A}
    (stepped : step opt s (.lockWorker j) = some t)
    (found : s.workers[j]? = some (.locking it now)) (node : s.node it = some n)
    (goes : t.workers[j]? ≠ some .done) : n.data.expired opt now = false := by
  apply Bool.eq_false_iff.mpr
  intro expired
  simp only [CacheData.expired, Bool.and_eq_true, List.isEmpty_iff, decide_eq_true_eq] at expired
  apply goes
  simp only [step, found, node, process, expired, and_self, ↓reduceIte, Option.some.injEq] at stepped
  rw [← stepped]
  exact List.getElem?_set_self (List.getElem?_eq_some_iff.mp found).1

/-- A queue is drained: each callback that was queued is going to be called. -/
theorem drains_lowered (single : SingleTask s) (spaced : opt.Spaced s.clock) {j it now : ℕ}
    {w : Worker κ A} {n m : Node κ A} (found : s.workers[j]? = some w)
    (mine : w.task it = 1) (node : s.node it = some n) (drained : t = { s with
      nodes := s.nodes.set it (drain opt it m now).2
      workers := s.workers.set j (drain opt it m now).1 })
    (same : m.cost = n.cost) (present : m.present = n.present) (past : now ≤ s.clock)
    (used : m.data.used_at ≤ s.clock)
    (recent : now < Clock.add m.data.resolved_at opt.dns_cache_refresh_period)
    (enough : 2 + (if now < s.clock ∨ m.data.expired opt s.clock = true then execution else 0) <
      w.cost opt s) : t.budget opt < s.budget opt := by
  have clock : t.clock = s.clock := by rw [drained]
  have written : t.nodes = s.nodes.set it (drain opt it m now).2 := by rw [drained]
  have moved : t.workers = s.workers.set j (drain opt it m now).1 := by rw [drained]
  have calls : t.calls = s.calls := by rw [drained]
  have tasks : t.tasks = s.tasks := by rw [drained]
  have kept : (drain opt it m now).2.present = n.present := (drain_present it m now).trans present
  have cost := drain_cost (clock ▸ spaced) (node_self node written kept) (clock ▸ past)
    (clock ▸ used) recent
  have workers : total (Worker.cost opt t) t.workers + w.cost opt s ≤
      total (Worker.cost opt s) s.workers + (drain opt it m now).1.cost opt t :=
    workers_cost single found mine clock (node_other node written) moved
  have nodes := total_set Node.cost (drain opt it m now).2 (State.node_eq_some.mp node).1
  have empty : (drain opt it m now).2.cost = 0 := List.length_eq_zero_iff.mpr (drain_idle it m now)
  rw [clock] at cost
  rw [← written] at nodes
  simp only [State.budget, calls, tasks, clock]
  omega

theorem cost_same (nodes : t.nodes = s.nodes) (clock : t.clock = s.clock) :
    (Worker.cost opt t : Worker κ A → ℕ) = Worker.cost opt s := by
  have node : ∀ i, t.node i = s.node i := by
    intro i
    rw [State.node, State.node, nodes]
  funext w
  have same : w.again opt t = w.again opt s := by
    cases w <;> simp only [Worker.again, node, clock]
  rw [Worker.cost, Worker.cost, same]

theorem cost_lt {w y : Worker κ A} (left : y.left < w.left) (again : y.again opt t = w.again opt s) :
    y.cost opt t < w.cost opt s := by
  rw [Worker.cost, Worker.cost, again]
  exact Nat.add_lt_add_right left _

/-- A worker moves on without the lock, or without writing to its entry. -/
theorem passes_lowered (single : SingleTask s) {j it : ℕ} {w y : Worker κ A}
    (found : s.workers[j]? = some w) (mine : w.task it = 1) (less : y.cost opt s < w.cost opt s)
    (clock : t.clock = s.clock) (nodes : t.nodes = s.nodes) (calls : t.calls = s.calls)
    (tasks : t.tasks = s.tasks) (moved : t.workers = s.workers.set j y) :
    t.budget opt < s.budget opt := by
  have node : ∀ i, i ≠ it → t.node i = s.node i := by
    intro i _
    rw [State.node, State.node, nodes]
  have workers : total (Worker.cost opt t) t.workers + w.cost opt s ≤
      total (Worker.cost opt s) s.workers + y.cost opt t :=
    workers_cost single found mine clock node moved
  rw [congrFun (cost_same nodes clock) y] at workers
  simp only [State.budget, calls, tasks, clock, nodes]
  omega

/-- A call of `Resolve` has taken the lock and found the entry. -/
theorem lockCall_lowered {i it : ℕ} {c d : Call κ A} {n m : Node κ A} (found : s.calls[i]? = some c)
    (node : s.node it = some n)
    (locked : t = { s with nodes := s.nodes.set it m, calls := s.calls.set i d })
    (present : m.present = n.present) (later : n.Later opt m)
    (less : d.cost + m.cost < c.cost + n.cost) : t.budget opt < s.budget opt := by
  have clock : t.clock = s.clock := by rw [locked]
  have written : t.nodes = s.nodes.set it m := by rw [locked]
  have workers : t.workers = s.workers := by rw [locked]
  have tasks : t.tasks = s.tasks := by rw [locked]
  have moved : t.calls = s.calls.set i d := by rw [locked]
  have cost : total (Worker.cost opt t) s.workers ≤ total (Worker.cost opt s) s.workers := by
    apply total_le_total
    intro w _
    exact cost_later node (node_self node written present) later clock (node_other node written)
  have nodes := total_set Node.cost m (State.node_eq_some.mp node).1
  have calls := total_set Call.cost d found
  simp only [State.budget, workers, tasks, clock, written, moved]
  omega

theorem State.budget_creates (single : SingleTask s) {i now : ℕ} {host_port : HostPort} {cb : κ}
    (found : s.calls[i]? = some (.locking host_port cb now))
    (created : t = { s with
      nodes := s.nodes ++ [{ key := host_port, data := { callbacks := [cb] } }]
      calls := s.calls.set i (.scheduling s.nodes.length now) }) : t.budget opt < s.budget opt := by
  have clock : t.clock = s.clock := by rw [created]
  have written : t.nodes = s.nodes ++ [{ key := host_port, data := { callbacks := [cb] } }] := by
    rw [created]
  have workers : t.workers = s.workers := by rw [created]
  have tasks : t.tasks = s.tasks := by rw [created]
  have moved : t.calls = s.calls.set i (.scheduling s.nodes.length now) := by rw [created]
  have node : ∀ k, k ≠ s.nodes.length → t.node k = s.node k := by
    intro k old
    rw [node_append written rfl, if_neg old]
  have cost : total (Worker.cost opt t) s.workers ≤ total (Worker.cost opt s) s.workers := by
    apply total_le_total
    intro w member
    have none := single s.nodes.length
    have mine := weight_le_total (Worker.task s.nodes.length) member
    have absent : s.node s.nodes.length = Option.none := by simp [State.node]
    simp only [State.tasksFor, absent, Option.isSome_none, Bool.toNat_false] at none
    exact Nat.le_of_eq (cost_other (by omega) clock node)
  have calls := total_set Call.cost (.scheduling s.nodes.length now) found
  simp only [Call.cost] at calls
  simp only [State.budget, workers, tasks, clock, written, moved, total_append, total_cons,
    total_nil, Node.cost, List.length_singleton]
  omega

theorem State.budget_starts {k it : ℕ} {time : ℤ} (found : s.tasks[k]? = some (time, it))
    (due : time ≤ s.clock) (started : t = { s with
      tasks := s.tasks.eraseIdx k, workers := s.workers ++ [.locking it s.clock] }) :
    t.budget opt < s.budget opt := by
  have clock : t.clock = s.clock := by rw [started]
  have nodes : t.nodes = s.nodes := by rw [started]
  have calls : t.calls = s.calls := by rw [started]
  have workers : t.workers = s.workers ++ [.locking it s.clock] := by rw [started]
  have moved : t.tasks = s.tasks.eraseIdx k := by rw [started]
  have taken := total_eraseIdx (taskCost s.clock) found
  have whole : taskCost s.clock (time, it) = execution := if_pos due
  have fresh : Worker.cost opt s (.locking it s.clock : Worker κ A) = 6 := by
    simp [Worker.cost, Worker.left, Worker.again]
  rw [whole] at taken
  simp only [State.budget, nodes, calls, clock, workers, moved, cost_same nodes clock,
    total_append, total_cons, total_nil, fresh]
  simp only [execution] at taken
  omega

theorem State.budget_schedules {i it now : ℕ} (found : s.calls[i]? = some (.scheduling it now))
    (scheduled : t = { s with
      tasks := s.tasks ++ [((now : ℤ), it)], calls := s.calls.set i .done }) :
    t.budget opt < s.budget opt := by
  have clock : t.clock = s.clock := by rw [scheduled]
  have nodes : t.nodes = s.nodes := by rw [scheduled]
  have workers : t.workers = s.workers := by rw [scheduled]
  have tasks : t.tasks = s.tasks ++ [((now : ℤ), it)] := by rw [scheduled]
  have moved : t.calls = s.calls.set i .done := by rw [scheduled]
  have calls := total_set Call.cost .done found
  have atMost : taskCost s.clock ((now : ℤ), it) ≤ execution := by
    unfold taskCost
    split <;> simp
  simp only [Call.cost] at calls
  simp only [State.budget, nodes, workers, clock, tasks, moved, cost_same nodes clock,
    total_append, total_cons, total_nil]
  omega

theorem State.budget_reschedules (single : SingleTask s) {j it : ℕ} {next : ℤ}
    (found : s.workers[j]? = some (.scheduling it next)) (rescheduled : t = { s with
      tasks := s.tasks ++ [(next, it)], workers := s.workers.set j .done }) :
    t.budget opt < s.budget opt := by
  have clock : t.clock = s.clock := by rw [rescheduled]
  have nodes : t.nodes = s.nodes := by rw [rescheduled]
  have calls : t.calls = s.calls := by rw [rescheduled]
  have tasks : t.tasks = s.tasks ++ [(next, it)] := by rw [rescheduled]
  have node : ∀ i, i ≠ it → t.node i = s.node i := by
    intro i _
    rw [State.node, State.node, nodes]
  have mine : (Worker.scheduling it next : Worker κ A).task it = 1 := if_pos rfl
  have workers : total (Worker.cost opt t) t.workers + (Worker.scheduling it next).cost opt s ≤
      total (Worker.cost opt s) s.workers + Worker.done.cost opt t :=
    workers_cost single found mine clock node (by rw [rescheduled])
  have before : (Worker.scheduling it next : Worker κ A).cost opt s =
      1 + taskCost s.clock (next, it) := by
    simp [Worker.cost, Worker.left, Worker.again, taskCost]
  have after : (Worker.done : Worker κ A).cost opt t = 0 := rfl
  simp only [State.budget, calls, tasks, clock, nodes, total_append, total_cons, total_nil]
  omega

theorem State.budget_erases (single : SingleTask s) {j it now : ℕ} {n : Node κ A}
    (found : s.workers[j]? = some (.locking it now)) (node : s.node it = some n)
    (erased : t = { s with
      nodes := s.nodes.set it { n with present := false }, workers := s.workers.set j .done }) :
    t.budget opt < s.budget opt := by
  have clock : t.clock = s.clock := by rw [erased]
  have written : t.nodes = s.nodes.set it { n with present := false } := by rw [erased]
  have calls : t.calls = s.calls := by rw [erased]
  have tasks : t.tasks = s.tasks := by rw [erased]
  have mine : (Worker.locking it now : Worker κ A).task it = 1 := if_pos rfl
  have workers : total (Worker.cost opt t) t.workers + (Worker.locking it now).cost opt s ≤
      total (Worker.cost opt s) s.workers + Worker.done.cost opt t :=
    workers_cost single found mine clock (node_other node written) (by rw [erased])
  have nodes := total_set Node.cost { n with present := false } (State.node_eq_some.mp node).1
  have same : Node.cost { n with present := false } = n.cost := rfl
  have before : 6 ≤ (Worker.locking it now : Worker κ A).cost opt s := Nat.le_add_right 6 _
  have after : (Worker.done : Worker κ A).cost opt t = 0 := rfl
  rw [← written] at nodes
  simp only [State.budget, calls, tasks, clock]
  omega

theorem State.budget_returns (single : SingleTask s) {j it lookup : ℕ} {n : Node κ A}
    {addr : Option (Cursor A)} {lookups : List (Lookup A)}
    (found : s.workers[j]? = some (.resolving it)) (node : s.node it = some n)
    (returned : t = { s with
      nodes := s.nodes.set it { n with lookups }
      workers := s.workers.set j (.resolved it lookup addr) }) : t.budget opt < s.budget opt := by
  have clock : t.clock = s.clock := by rw [returned]
  have written : t.nodes = s.nodes.set it { n with lookups } := by rw [returned]
  have calls : t.calls = s.calls := by rw [returned]
  have tasks : t.tasks = s.tasks := by rw [returned]
  have mine : (Worker.resolving it : Worker κ A).task it = 1 := if_pos rfl
  have workers : total (Worker.cost opt t) t.workers + (Worker.resolving it).cost opt s ≤
      total (Worker.cost opt s) s.workers + (Worker.resolved it lookup addr).cost opt t :=
    workers_cost single found mine clock (node_other node written) (by rw [returned])
  have nodes := total_set Node.cost { n with lookups } (State.node_eq_some.mp node).1
  have same : Node.cost { n with lookups } = n.cost := rfl
  have again : (Worker.resolved it lookup addr).again opt t =
      (Worker.resolving it : Worker κ A).again opt s := by
    simp only [Worker.again, node, node_self node written rfl, clock, Option.any_some]
  have less : (Worker.resolved it lookup addr).cost opt t <
      (Worker.resolving it : Worker κ A).cost opt s := cost_lt (Nat.lt_succ_self 4) again
  rw [← written] at nodes
  simp only [State.budget, calls, tasks, clock]
  omega

theorem clock_of_inner (inner : a.inner) (moved : Moved opt s a t) :
    t.clock = s.clock := by
  cases moved with
  | tick => exact inner.elim
  | _ => rfl

variable [DecidableEq κ]

/-- Each step of the resolver itself brings it nearer to its rest. -/
theorem budget_lowered (spaced : opt.Spaced s.clock) (single : SingleTask s) (history : History s)
    (planned : ∀ w ∈ s.workers, w.Planned opt s) (current : Current s) (inner : a.inner)
    (stepped : step opt s a = some t) : t.budget opt < s.budget opt := by
  have earlier : ∀ {it : ℕ} {n : Node κ A}, s.node it = some n → n.data.used_at ≤ s.clock :=
    fun node => current.used _ (List.mem_of_getElem? (State.node_eq_some.mp node).1)
  cases step_cases stepped with
  | tick | call => exact inner.elim
  | creates found absent => exact State.budget_creates single found rfl
  | queues found cached node busy =>
      refine lockCall_lowered found node rfl rfl ⟨?_, Int.le_refl _⟩ ?_
      · intro clock expired
        simp [CacheData.expired] at expired
      · simp only [Call.cost, Node.cost, execution, List.length_append, List.length_singleton]
        omega
  | @answers i now it host_port cb n found cached node idle =>
      have reading : max n.data.used_at now ≤ s.clock :=
        Nat.max_le.mpr ⟨earlier node, current.arriving _ _ _ (List.mem_of_getElem? found)⟩
      have later : Clock.add n.data.used_at opt.dns_cache_refresh_duration ≤
          Clock.add (max n.data.used_at now) opt.dns_cache_refresh_duration :=
        Clock.add_le_add (spaced.duration_fits.earlier reading) (Nat.le_max_left _ _)
      refine lockCall_lowered found node rfl rfl ⟨?_, ?_⟩ ?_
      · intro clock expired
        simp only [CacheData.expired, use_callbacks, Bool.and_eq_true, decide_eq_true_eq] at expired ⊢
        exact ⟨expired.1, Int.le_trans later expired.2⟩
      · exact min_le_min_left _ later
      · simp only [Call.cost, Node.cost, execution, use_callbacks]
        omega
  | schedules found => exact State.budget_schedules found rfl
  | @calls i answer found =>
      have calls := total_set Call.cost .done found
      have same : (Worker.cost opt { s with
          calls := s.calls.set i .done, answers := s.answers ++ [answer] } : Worker κ A → ℕ) =
          Worker.cost opt s := cost_same rfl rfl
      simp only [Call.cost] at calls
      simp only [State.budget, same]
      omega
  | starts found due => exact State.budget_starts found due rfl
  | erases found node empty unused => exact State.budget_erases single found node rfl
  | @looksUp j it now n found node stale =>
      have inside := (List.getElem?_eq_some_iff.mp found).1
      have unexpired : n.data.expired opt now = false := by
        apply unexpired_of_lockWorker stepped found node
        simp [List.getElem?_set_self inside]
      have past : now ≤ s.clock := planned _ (List.mem_of_getElem? found)
      refine passes_lowered single found (if_pos rfl) ?_ rfl rfl rfl rfl rfl
      simp only [Worker.cost, Worker.left, Worker.again, node, Option.any_some, decide_eq_true_eq]
      rcases Nat.lt_or_eq_of_le past with before | rfl
      · rw [if_pos before]
        split <;> omega
      · rw [unexpired, if_neg nofun]
        omega
  | @skips j it now n found node recent =>
      have inside := (List.getElem?_eq_some_iff.mp found).1
      have unexpired : n.data.expired opt now = false := by
        apply unexpired_of_lockWorker stepped found node
        rw [List.getElem?_set_self inside]
        unfold drain
        split <;> nofun
      have past : now ≤ s.clock := planned _ (List.mem_of_getElem? found)
      refine drains_lowered single spaced found (if_pos rfl) node rfl rfl rfl past (earlier node)
        recent ?_
      simp only [Worker.cost, Worker.left, Worker.again, decide_eq_true_eq]
      rcases Nat.lt_or_eq_of_le past with before | rfl
      · rw [if_pos (.inl before), if_pos before]
        omega
      · rw [unexpired, if_neg (by simp)]
        omega
  | returns found node result => exact State.budget_returns single found node rfl
  | @reads j it lookup addr found =>
      refine passes_lowered single found (if_pos rfl) ?_ rfl rfl rfl rfl rfl
      refine cost_lt ?_ ?_
      · exact Nat.lt_succ_self 3
      · simp only [Worker.again, Nat.lt_irrefl, decide_false, Bool.false_or]
  | @records j it lookup now addr n found node =>
      have past : now ≤ s.clock := (history.awaits _ (List.mem_of_getElem? found)).1
      have same : (n.record lookup addr now).data.expired opt s.clock = n.data.expired opt s.clock := by
        simp [CacheData.expired, Node.record]
      refine drains_lowered single spaced found (if_pos rfl) node rfl ?_ rfl past ?_ ?_ ?_
      · simp [Node.cost, Node.record]
      · simpa [Node.record] using earlier node
      · simpa [Node.record] using Clock.lt_add (spaced.period_fits.earlier past) spaced.period
      · rw [same]
        simp only [Worker.cost, Worker.left, Worker.again, node, Option.any_some, Bool.or_eq_true,
          decide_eq_true_eq]
        omega
  | @callsBack j it index now cb rest addr seen found =>
      refine passes_lowered single found (if_pos rfl) ?_ rfl rfl rfl rfl rfl
      refine cost_lt ?_ ?_
      · exact Nat.lt_succ_self (2 + rest.length)
      · rfl
  | relocks found node =>
      refine passes_lowered single found (if_pos rfl) ?_ rfl rfl rfl rfl rfl
      refine cost_lt ?_ ?_
      · exact Nat.lt_succ_self 1
      · simp only [Worker.again, node, Option.any_some]
  | reschedules found => exact State.budget_reschedules single found rfl
  | dangles found uses erased => exact absurd erased (single.node_ne_none found uses)

end Step

/-- The resolver has nothing to do before the clock goes on. -/
structure Quiet (s : State κ A) : Prop where
  calls : ∀ c ∈ s.calls, c = .done
  workers : ∀ w ∈ s.workers, w = .done
  tasks : ∀ task ∈ s.tasks, s.clock < task.1

/-- Every entry has its task in the queue then. -/
theorem Quiet.scheduled {s : State κ A} (quiet : Quiet s) (single : SingleTask s) (it : ℕ) :
    total (fun task => if task.2 = it then 1 else 0) s.tasks = (s.node it).isSome.toNat := by
  have calls : total (Call.task it) s.calls = 0 := by
    apply total_eq_zero.mpr
    intro c member
    rw [quiet.calls c member]
    rfl
  have workers : total (Worker.task it) s.workers = 0 := by
    apply total_eq_zero.mpr
    intro w member
    rw [quiet.workers w member]
    rfl
  have one := single it
  rw [State.tasksFor, calls, workers] at one
  omega

section Rest

variable [DecidableEq κ] {s t : State κ A}

theorem Reachable.current (reach : Reachable opt s) : Current s := by
  have known : ∀ s : State κ A, Reachable opt s → SingleTask s ∧ History s ∧ Retained opt s :=
    fun s reach => ⟨ReachableIf.singleTask reach, ReachableIf.history reach,
      retained_of_reachable reach⟩
  refine Runs.Reachable.strengthen known (fun _ => init_current) ?_ reach
  rintro s t ⟨single, history, retained⟩ current ⟨a, _, stepped⟩
  have moved := step_cases stepped
  exact current_kept single history retained.planned
    (ages_of_moved single history retained.resolved moved) current moved

theorem spends : Runs.Spends (step opt) Action.inner
    (fun s : State κ A => Reachable opt s ∧ opt.Spaced s.clock) (State.budget opt) := by
  constructor
  · rintro s a t ⟨reach, spaced⟩ inner stepped
    refine ⟨.move reach ⟨a, trivial, stepped⟩, ?_⟩
    rw [clock_of_inner inner (step_cases stepped)]
    exact spaced
  · rintro s a t ⟨reach, spaced⟩ inner stepped
    exact budget_lowered spaced (ReachableIf.singleTask reach) (ReachableIf.history reach)
      (retained_of_reachable reach).planned reach.current inner stepped

theorem Reachable.noneDangles (reach : Reachable opt s) : NoneDangles s := by
  refine Runs.Reachable.strengthen (fun s => ReachableIf.singleTask) ?_ ?_ reach
  · rintro s ⟨clock, rfl⟩
    exact List.not_mem_nil
  · rintro s t single fine ⟨a, _, stepped⟩
    exact noneDangles_kept single fine (step_cases stepped)

/-- No call of `Resolve` is under way where the resolver rests. -/
theorem rests_calls (rests : Runs.Rests (step opt) Action.inner s) : ∀ c ∈ s.calls, c = .done := by
  intro c member
  obtain ⟨i, found⟩ := List.mem_iff_getElem?.mp member
  cases c with
  | locking host_port cb now =>
      have stuck := rests (.lockCall i) trivial
      simp [step, found] at stuck
  | scheduling it now =>
      have stuck := rests (.scheduleCall i) trivial
      simp [step, found] at stuck
  | calling answer =>
      have stuck := rests (.answerCall i) trivial
      simp [step, found] at stuck
  | done => rfl

/-- No execution of `ProcessCacheEntry` is under way either. -/
theorem rests_workers (fine : NoneDangles s) (rests : Runs.Rests (step opt) Action.inner s) :
    ∀ w ∈ s.workers, w = .done := by
  intro w member
  obtain ⟨j, found⟩ := List.mem_iff_getElem?.mp member
  cases w with
  | locking it now =>
      have stuck := rests (.lockWorker j) trivial
      simp only [step, found] at stuck
      split at stuck <;> cases stuck
  | resolving it =>
      have stuck := rests (.returnResolve j none) trivial
      simp only [step, found] at stuck
      split at stuck <;> cases stuck
  | resolved it lookup addr =>
      have stuck := rests (.readClock j) trivial
      simp [step, found] at stuck
  | recording it lookup addr now =>
      have stuck := rests (.lockRecord j) trivial
      simp only [step, found] at stuck
      split at stuck <;> cases stuck
  | calling it callbacks addr index now seen =>
      cases callbacks with
      | nil =>
          have stuck := rests (.relock j) trivial
          simp only [step, found] at stuck
          split at stuck <;> cases stuck
      | cons cb rest =>
          have stuck := rests (.callback j) trivial
          simp [step, found] at stuck
  | scheduling it next =>
      have stuck := rests (.schedule j) trivial
      simp [step, found] at stuck
  | done => rfl
  | dangling => exact absurd member fine

theorem rests_tasks (rests : Runs.Rests (step opt) Action.inner s) :
    ∀ task ∈ s.tasks, s.clock < task.1 := by
  intro ⟨time, it⟩ member
  obtain ⟨k, found⟩ := List.mem_iff_getElem?.mp member
  apply Int.lt_of_not_ge
  intro due
  have stuck := rests (.start k) trivial
  simp [step, found, due] at stuck

theorem quiet_of_rests (fine : NoneDangles s) (rests : Runs.Rests (step opt) Action.inner s) :
    Quiet s :=
  ⟨rests_calls rests, rests_workers fine rests, rests_tasks rests⟩

/-- No queue has callbacks then: its entry would have a task, and that would be due. -/
theorem Quiet.queues (quiet : Quiet s) (reach : Reachable opt s) :
    ∀ n ∈ s.nodes, n.data.callbacks = [] := by
  intro n member
  apply Classical.byContradiction
  intro queued
  obtain ⟨it, found⟩ := List.mem_iff_getElem?.mp member
  have node := State.node_eq_some.mpr ⟨found, reach.placed.cached n member queued⟩
  have positive : 0 < total (fun task => if task.2 = it then 1 else 0) s.tasks := by
    rw [quiet.scheduled (ReachableIf.singleTask reach), node]
    exact Nat.one_pos
  obtain ⟨⟨time, i⟩, scheduled, mine⟩ := exists_of_total_pos positive
  have same : i = it := by
    by_contra other
    simp [other] at mine
  subst same
  have due := reach.current.due time i n scheduled node queued
  have later := quiet.tasks _ scheduled
  omega

theorem Quiet.waiting (quiet : Quiet s) (reach : Reachable opt s) (cb : κ) : s.waiting cb = 0 := by
  have arriving : s.count cb .arriving = 0 := by
    apply total_eq_zero.mpr
    intro c member
    rw [quiet.calls c member]
    rfl
  have due : s.count cb .due = 0 := by
    apply total_eq_zero.mpr
    intro c member
    rw [quiet.calls c member]
    rfl
  have drained : s.count cb .drained = 0 := by
    apply total_eq_zero.mpr
    intro w member
    rw [quiet.workers w member]
    rfl
  have queued : s.count cb .queued = 0 := by
    apply total_eq_zero.mpr
    intro n member
    rw [Node.queued, quiet.queues reach n member]
    rfl
  rw [State.waiting, arriving, due, drained, queued]

/-- All callbacks have been called then, each of them once. -/
theorem Quiet.called (quiet : Quiet s) (reach : Reachable opt s) :
    (s.answers.map Answer.cb).Perm s.issued := by
  apply List.perm_iff_count.mpr
  intro cb
  have all := reach.placed.waiting cb
  have none := quiet.waiting reach cb
  omega

/-- What a run of the resolver itself leaves alone. -/
theorem replay_inner {actions : List (Action κ A)} (reach : Reachable opt s)
    (inner : ∀ a ∈ actions, Action.inner a)
    (ran : Runs.replay (step opt) s actions = some t) : Reachable opt t ∧ t.issued = s.issued := by
  induction actions generalizing s with
  | nil =>
      cases ran
      exact ⟨reach, rfl⟩
  | cons a rest ih =>
      obtain ⟨u, stepped, ran⟩ := Option.bind_eq_some_iff.mp ran
      have first := inner a List.mem_cons_self
      have next : Reachable opt u := .move reach ⟨a, trivial, stepped⟩
      have same : u.issued = s.issued := by
        cases step_cases stepped with
        | tick | call => exact first.elim
        | _ => rfl
      obtain ⟨final, issued⟩ :=
        ih next (fun b member => inner b (List.mem_cons_of_mem a member)) ran
      exact ⟨final, issued.trans same⟩

/-- The callback is called exactly once. While the clock stands still and nobody calls `Resolve`
the resolver makes no more steps than its budget, it can always come to rest, and when it rests
every callback that was passed to `Resolve` has been called. -/
theorem called_at_rest (spaced : opt.Spaced s.clock) (reach : Reachable opt s) :
    (∀ actions t, (∀ a ∈ actions, Action.inner a) → Runs.replay (step opt) s actions = some t →
      actions.length ≤ s.budget opt ∧
      (Runs.Rests (step opt) Action.inner t → (t.answers.map Answer.cb).Perm s.issued)) ∧
    ∃ actions t, (∀ a ∈ actions, Action.inner a) ∧ Runs.replay (step opt) s actions = some t ∧
      Runs.Rests (step opt) Action.inner t := by
  refine ⟨?_, spends.exists_rest ⟨reach, spaced⟩⟩
  intro actions t inner ran
  have bound := spends.length_le ⟨reach, spaced⟩ inner ran
  refine ⟨by omega, fun rests => ?_⟩
  obtain ⟨final, issued⟩ := replay_inner reach inner ran
  rw [← issued]
  exact (quiet_of_rests final.noneDangles rests).called final

/-- Two calls of `Resolve` wait for a lookup, and the clock reads 5. -/
theorem called_at_rest_lookingUp : ∃ actions t, (∀ a ∈ actions, Action.inner a) ∧
    Runs.replay (step ⟨1, 1, 1⟩) lookingUp actions = some t ∧ actions.length ≤ 7 ∧
    (t.answers.map Answer.cb).Perm [0, 1] := by
  have spaced : Options.Spaced ⟨1, 1, 1⟩ lookingUp.clock :=
    ⟨by decide, by decide, by decide, by decide⟩
  obtain ⟨runs, actions, t, inner, ran, rests⟩ := called_at_rest spaced lookingUp_reachable
  obtain ⟨bound, called⟩ := runs actions t inner ran
  exact ⟨actions, t, inner, ran, bound, called rests⟩

end Rest

end Hcproxy.Dns
