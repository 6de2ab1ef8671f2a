import Hcproxy.DnsFreshness
import Hcproxy.DnsSingleFlight

set_option autoImplicit false

namespace Hcproxy.Dns

open Ring (Cursor)
open Threads

variable {κ A : Type} {opt : Options}

/-- An answer was taken from the entry at the reading `now`: it has been given, a call of
`Resolve` is about to give it, or it is one of a queue that a worker is running. -/
inductive State.Used (s : State κ A) (it now : ℕ) : Prop
  | given {a : Answer κ A} (member : a ∈ s.answers) (node : a.node = it) (reading : a.now = now)
  | due {a : Answer κ A} (member : .calling a ∈ s.calls) (node : a.node = it)
    (reading : a.now = now)
  | queued {callbacks : List κ} {addr : Option (Cursor A)} {index : ℕ} {seen : List (Lookup A)}
    (member : .calling it callbacks addr index now seen ∈ s.workers)

/-- What a step may do to the times of an entry. A queue that has been drained stays empty. -/
structure Node.Ages (n m : Node κ A) : Prop where
  used_at : n.data.used_at ≤ m.data.used_at
  resolved_at : n.data.resolved_at ≤ m.data.resolved_at
  drained : n.data.callbacks = [] → m.data.callbacks = []

/-- Entries age and new ones may be added. -/
def Ages (nodes after : List (Node κ A)) : Prop :=
  ∀ (it : ℕ) (n : Node κ A), nodes[it]? = some n → ∃ m : Node κ A, after[it]? = some m ∧ n.Ages m

/-- `resolved_at` is when the last lookup was recorded. -/
structure Node.Resolved (n : Node κ A) : Prop where
  success : n.data.successfully_resolved_at ≤ n.data.resolved_at
  last : n.data.resolved_at = 0 ∨ ∃ l ∈ n.lookups, l.recorded = some n.data.resolved_at
  recorded : ∀ l ∈ n.lookups, ∀ r ∈ l.recorded, r ≤ n.data.resolved_at

section Data

variable {n m k : Node κ A}

theorem Node.Ages.refl (n : Node κ A) : n.Ages n := ⟨Nat.le_refl _, Nat.le_refl _, id⟩

theorem Node.Ages.trans (first : n.Ages m) (second : m.Ages k) : n.Ages k :=
  ⟨Nat.le_trans first.used_at second.used_at, Nat.le_trans first.resolved_at second.resolved_at,
    fun empty => second.drained (first.drained empty)⟩

@[simp] theorem use_iterate_resolved_at (data : CacheData κ A) (now k : ℕ) :
    ((CacheData.use · now)^[k] data).resolved_at = data.resolved_at := by
  induction k generalizing data with
  | zero => rfl
  | succ k ih => exact ih (data.use now)

theorem use_iterate_used_at (data : CacheData κ A) (now k : ℕ) :
    data.used_at ≤ ((CacheData.use · now)^[k] data).used_at := by
  induction k generalizing data with
  | zero => exact Nat.le_refl _
  | succ k ih => exact Nat.le_trans (Nat.le_max_left _ _) (ih (data.use now))

/-- Every use is a reading that `used_at` has reached. -/
theorem le_use_iterate_used_at (data : CacheData κ A) (now : ℕ) {k : ℕ} (some : 0 < k) :
    now ≤ ((CacheData.use · now)^[k] data).used_at := by
  cases k with
  | zero => cases some
  | succ k =>
      show now ≤ ((CacheData.use · now)^[k] (data.use now)).used_at
      exact Nat.le_trans (Nat.le_max_right _ _) (use_iterate_used_at (data.use now) now k)

@[simp] theorem drain_resolved_at (it : ℕ) (n : Node κ A) (now : ℕ) :
    (drain opt it n now).2.data.resolved_at = n.data.resolved_at := by
  unfold drain
  split <;> simp

@[simp] theorem drain_successfully_resolved_at (it : ℕ) (n : Node κ A) (now : ℕ) :
    (drain opt it n now).2.data.successfully_resolved_at = n.data.successfully_resolved_at := by
  unfold drain
  split <;> simp

theorem drain_ages (it : ℕ) (n : Node κ A) (now : ℕ) : n.Ages (drain opt it n now).2 := by
  refine ⟨?_, by simp, ?_⟩
  · unfold drain
    split
    · exact Nat.le_refl _
    · exact use_iterate_used_at { n.data with callbacks := [] } now _
  · intro empty
    unfold drain
    simp [empty]

theorem le_drain_used_at {it now : ℕ} (queued : n.data.callbacks ≠ []) :
    now ≤ (drain opt it n now).2.data.used_at := by
  unfold drain
  rw [if_neg queued]
  exact le_use_iterate_used_at _ _ (List.length_pos_iff.mpr queued)

@[simp] theorem record_resolved_at (data : CacheData κ A) (addr : Option (Cursor A)) (now : ℕ) :
    (data.record addr now).resolved_at = now := by
  cases addr <;> rfl

@[simp] theorem record_used_at (data : CacheData κ A) (addr : Option (Cursor A)) (now : ℕ) :
    (data.record addr now).used_at = data.used_at := by
  cases addr <;> rfl

/-- The clock is read after the lookup, and after every one before. -/
theorem Node.Resolved.le {lookup now : ℕ} {addr : Option (Cursor A)} (resolved : n.Resolved)
    (awaits : n.Awaits lookup addr now) : n.data.resolved_at ≤ now := by
  obtain ⟨earlier, finished, lookups, -, -, recorded⟩ := awaits
  rcases resolved.last with zero | ⟨l, member, known⟩
  · omega
  · rw [lookups] at member
    rcases List.mem_append.mp member with member | member
    · obtain ⟨r, same, le⟩ := recorded l member
      cases Option.some.inj (same.symm.trans known)
      exact le
    · cases List.mem_singleton.mp member
      cases known

theorem Node.Resolved.record {lookup now : ℕ} {addr : Option (Cursor A)} (resolved : n.Resolved)
    (awaits : n.Awaits lookup addr now) : (n.record lookup addr now).Resolved := by
  have before := resolved.le awaits
  have success := resolved.success
  obtain ⟨earlier, finished, lookups, rfl, -, recorded⟩ := awaits
  have after : (n.record earlier.length addr now).lookups =
      earlier ++ [⟨finished, addr, some now, n.uses⟩] := by
    simp only [Node.record, lookups, recordLookup_append]
  have resolved_at : (n.record earlier.length addr now).data.resolved_at = now :=
    record_resolved_at n.data addr now
  refine ⟨?_, Or.inr ?_, ?_⟩
  · rw [resolved_at]
    cases addr with
    | none =>
        show n.data.successfully_resolved_at ≤ now
        omega
    | some p => exact Nat.le_refl _
  · rw [after, resolved_at]
    exact ⟨_, List.mem_append_right _ (List.mem_singleton_self _), rfl⟩
  · rw [after, resolved_at]
    intro l member r known
    rcases List.mem_append.mp member with member | member
    · obtain ⟨r', same, le⟩ := recorded l member
      cases Option.some.inj (same.symm.trans known)
      exact le
    · cases List.mem_singleton.mp member
      cases known
      exact Nat.le_refl _

theorem Node.Resolved.drain {it now : ℕ} (resolved : n.Resolved) :
    (drain opt it n now).2.Resolved := by
  refine ⟨?_, ?_, ?_⟩
  · simpa using resolved.success
  · simpa using resolved.last
  · simpa using resolved.recorded

end Data

section Step

variable {s t : State κ A} {a : Action κ A}

theorem resolved_kept (single : SingleTask s) (history : History s)
    (resolved : ∀ n ∈ s.nodes, n.Resolved) (moved : Moved opt s a t) :
    ∀ n ∈ t.nodes, n.Resolved := by
  refine nodes_kept single resolved moved ?_ ?_ ?_ ?_ ?_ ?_
  · exact fun key cb => ⟨Nat.le_refl _, Or.inl rfl, by simp⟩
  · exact fun n cb resolved _ => ⟨resolved.success, resolved.last, resolved.recorded⟩
  · exact fun n now resolved _ => ⟨resolved.success, resolved.last, resolved.recorded⟩
  · exact fun n resolved _ => ⟨resolved.success, resolved.last, resolved.recorded⟩
  · intro n finished addr resolved _
    refine ⟨resolved.success, ?_, ?_⟩
    · rcases resolved.last with zero | ⟨l, member, known⟩
      · exact Or.inl zero
      · exact Or.inr ⟨l, List.mem_append_left _ member, known⟩
    · intro l member r known
      rcases List.mem_append.mp member with member | member
      · exact resolved.recorded l member r known
      · cases List.mem_singleton.mp member
        cases known
  · intro it now m drains
    cases drains with
    | skipped found node recent =>
        exact (resolved _ (List.mem_of_getElem? (State.node_eq_some.mp node).1)).drain
    | recorded found node =>
        have member := List.mem_of_getElem? (State.node_eq_some.mp node).1
        exact ((resolved _ member).record (history.awaits_of_recording found node)).drain

theorem Ages.refl (nodes : List (Node κ A)) : Ages nodes nodes :=
  fun _ n found => ⟨n, found, .refl n⟩

theorem Ages.trans {nodes after last : List (Node κ A)} (first : Ages nodes after)
    (second : Ages after last) : Ages nodes last := by
  intro it n found
  obtain ⟨m, between, ages⟩ := first it n found
  obtain ⟨k, final, later⟩ := second it m between
  exact ⟨k, final, ages.trans later⟩

theorem Ages.set {it : ℕ} {n m : Node κ A} (node : s.node it = some n) (ages : n.Ages m) :
    Ages s.nodes (s.nodes.set it m) := by
  obtain ⟨found, -⟩ := State.node_eq_some.mp node
  obtain ⟨inside, -⟩ := List.getElem?_eq_some_iff.mp found
  intro i k before
  by_cases same : it = i
  · subst same
    cases Option.some.inj (found.symm.trans before)
    exact ⟨m, by simp [inside], ages⟩
  · exact ⟨k, by rw [List.getElem?_set_ne same]; exact before, .refl k⟩

theorem ages_of_moved (single : SingleTask s) (history : History s)
    (resolved : ∀ n ∈ s.nodes, n.Resolved) (moved : Moved opt s a t) : Ages s.nodes t.nodes := by
  cases moved with
  | creates found absent =>
      intro it n before
      obtain ⟨inside, -⟩ := List.getElem?_eq_some_iff.mp before
      exact ⟨n, by rw [List.getElem?_append_left inside]; exact before, .refl n⟩
  | queues found cached node busy =>
      exact .set node ⟨Nat.le_refl _, Nat.le_refl _, fun empty => absurd empty busy⟩
  | answers found cached node idle =>
      exact .set node ⟨Nat.le_max_left _ _, Nat.le_refl _, id⟩
  | erases found node empty unused => exact .set node ⟨Nat.le_refl _, Nat.le_refl _, id⟩
  | skips found node recent => exact .set node (drain_ages _ _ _)
  | returns found node result => exact .set node ⟨Nat.le_refl _, Nat.le_refl _, id⟩
  | @records j it lookup now addr n found node =>
      have member := List.mem_of_getElem? (State.node_eq_some.mp node).1
      have le := (resolved n member).le (history.awaits_of_recording found node)
      have recorded : n.Ages (n.record lookup addr now) := by
        refine ⟨?_, ?_, ?_⟩
        · simp [Node.record]
        · simpa [Node.record] using le
        · simp [Node.record]
      exact .set node (recorded.trans (drain_ages _ _ _))
  | tick | call | schedules | calls | starts | looksUp | reads | callsBack | relocks
  | reschedules => exact .refl _
  | dangles found uses erased => exact absurd erased (single.node_ne_none found uses)

/-- The answer was taken from an entry that is there and has been used since. -/
def Answer.Recorded (nodes : List (Node κ A)) (a : Answer κ A) : Prop :=
  ∃ n, nodes[a.node]? = some n ∧ a.now ≤ n.data.used_at

theorem Answer.Recorded.later {nodes after : List (Node κ A)} {a : Answer κ A}
    (recorded : a.Recorded nodes) (ages : Ages nodes after) : a.Recorded after := by
  obtain ⟨n, found, le⟩ := recorded
  obtain ⟨m, foundAfter, later⟩ := ages a.node n found
  exact ⟨m, foundAfter, Nat.le_trans le later.used_at⟩

/-- What the readings that a worker holds have to do with its entry. -/
def Worker.Planned (opt : Options) (s : State κ A) : Worker κ A → Prop
  | .locking _ now => now ≤ s.clock
  | .scheduling it next =>
    ∃ n, s.nodes[it]? = some n ∧ next ≤ n.data.resolved_at + opt.dns_cache_refresh_period.toInt
  | .calling it _ _ _ now _ => ∃ n, s.nodes[it]? = some n ∧ now ≤ n.data.used_at
  | _ => True

theorem Worker.Planned.later {w : Worker κ A} (planned : w.Planned opt s)
    (clock : s.clock ≤ t.clock) (ages : Ages s.nodes t.nodes) : w.Planned opt t := by
  cases w with
  | locking it now => exact Nat.le_trans planned clock
  | scheduling it next =>
      obtain ⟨n, found, le⟩ := planned
      obtain ⟨m, foundAfter, later⟩ := ages it n found
      have resolved_at := later.resolved_at
      exact ⟨m, foundAfter, by omega⟩
  | calling it callbacks addr index now seen =>
      obtain ⟨n, found, le⟩ := planned
      obtain ⟨m, foundAfter, later⟩ := ages it n found
      exact ⟨m, foundAfter, Nat.le_trans le later.used_at⟩
  | resolving | resolved | recording | done | dangling => trivial

theorem next_le (opt : Options) (data : CacheData κ A) :
    data.next opt ≤ data.resolved_at + opt.dns_cache_refresh_period.toInt :=
  Int.le_trans (Int.min_le_left _ _) (Clock.add_le _ _)

theorem drain_planned {it now : ℕ} {m : Node κ A} (found : t.nodes[it]? = some (drain opt it m now).2) :
    (drain opt it m now).1.Planned opt t := by
  by_cases empty : m.data.callbacks = []
  · unfold drain at found ⊢
    rw [if_pos empty] at found ⊢
    exact ⟨m, found, next_le opt m.data⟩
  · have used : now ≤ (drain opt it m now).2.data.used_at := le_drain_used_at empty
    unfold drain at found used ⊢
    rw [if_neg empty] at found used ⊢
    exact ⟨_, found, used⟩

theorem planned_kept (single : SingleTask s) (ages : Ages s.nodes t.nodes)
    (planned : ∀ w ∈ s.workers, w.Planned opt s) (moved : Moved opt s a t) :
    ∀ w ∈ t.workers, w.Planned opt t := by
  have clock := clock_of_moved moved
  have passes : ∀ {j : ℕ} {y : Worker κ A}, t.workers = s.workers.set j y → y.Planned opt t →
      ∀ w ∈ t.workers, w.Planned opt t := by
    intro j y workers planned' w member
    rw [workers] at member
    rcases mem_set member with rfl | member
    · exact planned'
    · exact (planned w member).later clock ages
  cases moved with
  | starts found due =>
      intro w member
      rcases List.mem_append.mp member with member | member
      · exact (planned w member).later clock ages
      · cases List.mem_singleton.mp member
        exact Nat.le_refl _
  | erases | looksUp | returns | reads | reschedules => exact passes rfl trivial
  | skips found node recent => exact passes rfl (drain_planned (getElem?_written node))
  | records found node => exact passes rfl (drain_planned (getElem?_written node))
  | callsBack found => exact passes rfl (planned _ (List.mem_of_getElem? found))
  | relocks found node => exact passes rfl ⟨_, (State.node_eq_some.mp node).1, next_le opt _⟩
  | dangles found uses erased => exact absurd erased (single.node_ne_none found uses)
  | tick | call | creates | queues | answers | schedules | calls =>
      exact fun w member => (planned w member).later clock ages

/-- Every answer that is given or due was taken from an entry that has been used since. -/
structure Recorded (s : State κ A) : Prop where
  given : ∀ b ∈ s.answers, b.Recorded s.nodes
  due : ∀ b, .calling b ∈ s.calls → b.Recorded s.nodes

theorem recorded_kept (single : SingleTask s) (ages : Ages s.nodes t.nodes)
    (planned : ∀ w ∈ s.workers, w.Planned opt s) (recorded : Recorded s) (moved : Moved opt s a t) :
    Recorded t := by
  have due : ∀ b, .calling b ∈ s.calls → b.Recorded t.nodes :=
    fun b member => (recorded.due b member).later ages
  refine ⟨given_kept (fun b member => (recorded.given b member).later ages) due ?_ moved,
    due_kept single due moved ?_⟩
  · intro it callbacks addr index now seen member cb _
    obtain ⟨n, found, le⟩ := planned _ member
    exact Answer.Recorded.later ⟨n, found, le⟩ ages
  · intro i host_port cb now it n isLock found cached node idle
    subst isLock
    have written : t.nodes = s.nodes.set it { n with data := n.data.use now, uses := n.uses + 1 } := by
      cases moved with
      | creates other absent =>
          cases Option.some.inj (found.symm.trans other)
          rw [cached] at absent
          cases absent
      | queues other again here busy =>
          cases Option.some.inj (found.symm.trans other)
          cases Option.some.inj (cached.symm.trans again)
          cases Option.some.inj (node.symm.trans here)
          exact absurd idle busy
      | answers other again here =>
          cases Option.some.inj (found.symm.trans other)
          cases Option.some.inj (cached.symm.trans again)
          cases Option.some.inj (node.symm.trans here)
          rfl
      | dangles other uses erased => exact absurd erased (single.node_ne_none other uses)
    refine ⟨{ n with data := n.data.use now, uses := n.uses + 1 }, ?_, ?_⟩
    · rw [written]
      exact getElem?_written node
    · exact Nat.le_max_right n.data.used_at now

/-- `used_at` has reached the readings of all uses. -/
theorem Recorded.le_used_at {it now : ℕ} {n : Node κ A} (recorded : Recorded s)
    (planned : ∀ w ∈ s.workers, w.Planned opt s) (node : s.nodes[it]? = some n)
    (used : s.Used it now) : now ≤ n.data.used_at := by
  have same : ∀ {m : Node κ A}, s.nodes[it]? = some m → now ≤ m.data.used_at →
      now ≤ n.data.used_at := by
    intro m found le
    cases Option.some.inj (node.symm.trans found)
    exact le
  cases used with
  | given member here reading =>
      obtain ⟨m, found, le⟩ := recorded.given _ member
      exact same (here ▸ found) (reading ▸ le)
  | due member here reading =>
      obtain ⟨m, found, le⟩ := recorded.due _ member
      exact same (here ▸ found) (reading ▸ le)
  | queued member =>
      obtain ⟨m, found, le⟩ := planned _ member
      exact same found le

/-- The task of the entry has been executed: no call of `Resolve` is about to schedule it, and
what is scheduled is not later than the next refresh. -/
structure Executed (opt : Options) (it : ℕ) (s : State κ A) : Prop where
  entry : it < s.nodes.length
  calls : ∀ c ∈ s.calls, c.task it = 0
  tasks : ∀ time, (time, it) ∈ s.tasks → ∃ n, s.nodes[it]? = some n ∧
    time ≤ n.data.resolved_at + opt.dns_cache_refresh_period.toInt

theorem executed_kept {it : ℕ} (single : SingleTask s) (ages : Ages s.nodes t.nodes)
    (planned : ∀ w ∈ s.workers, w.Planned opt s) (executed : Executed opt it s)
    (moved : Moved opt s a t) : Executed opt it t := by
  have entry : it < t.nodes.length := by
    have inside := executed.entry
    obtain ⟨m, found, -⟩ := ages it _ (List.getElem?_eq_getElem inside)
    exact (List.getElem?_eq_some_iff.mp found).1
  have old : ∀ time, (time, it) ∈ s.tasks → ∃ n, t.nodes[it]? = some n ∧
      time ≤ n.data.resolved_at + opt.dns_cache_refresh_period.toInt := by
    intro time member
    obtain ⟨n, found, le⟩ := executed.tasks time member
    obtain ⟨m, foundAfter, later⟩ := ages it n found
    have resolved_at := later.resolved_at
    exact ⟨m, foundAfter, by omega⟩
  have moves : ∀ {i : ℕ} {y : Call κ A}, y.task it = 0 →
      ∀ c ∈ s.calls.set i y, c.task it = 0 := by
    intro i y none c member
    rcases mem_set member with rfl | member
    · exact none
    · exact executed.calls c member
  refine ⟨entry, ?_, ?_⟩
  · cases moved with
    | call fresh =>
        intro c member
        rcases List.mem_append.mp member with member | member
        · exact executed.calls c member
        · cases List.mem_singleton.mp member
          rfl
    | creates found absent =>
        have inside := executed.entry
        have other : s.nodes.length ≠ it := by omega
        exact moves (by simp [Call.task, other])
    | queues | answers | schedules | calls => exact moves rfl
    | tick | starts | erases | looksUp | skips | returns | reads | records | callsBack | relocks
    | reschedules => exact executed.calls
    | dangles found uses erased => exact absurd erased (single.node_ne_none found uses)
  · cases moved with
    | @schedules i it' now found =>
        intro time member
        rcases List.mem_append.mp member with member | member
        · exact old time member
        · cases List.mem_singleton.mp member
          have none := executed.calls _ (List.mem_of_getElem? found)
          simp [Call.task] at none
    | starts found due => exact fun time member => old time (List.mem_of_mem_eraseIdx member)
    | reschedules found =>
        intro time member
        rcases List.mem_append.mp member with member | member
        · exact old time member
        · cases List.mem_singleton.mp member
          exact planned _ (List.mem_of_getElem? found)
    | tick | call | creates | queues | answers | calls | erases | looksUp | skips | returns | reads
    | records | callsBack | relocks => exact old
    | dangles found uses erased => exact absurd erased (single.node_ne_none found uses)

/-- The end of an execution. -/
theorem executed_of_scheduled {j it : ℕ} {next : ℤ} (single : SingleTask s)
    (planned : ∀ w ∈ s.workers, w.Planned opt s)
    (found : s.workers[j]? = some (.scheduling it next)) :
    Executed opt it { s with tasks := s.tasks ++ [(next, it)], workers := s.workers.set j .done } := by
  have one := single it
  have mine := weight_le_total (Worker.task it) (List.mem_of_getElem? found)
  have atMost := Bool.toNat_le (s.node it).isSome
  simp only [State.tasksFor, Worker.task, ↓reduceIte] at one mine
  obtain ⟨n, there, le⟩ : (Worker.scheduling it next : Worker κ A).Planned opt s :=
    planned _ (List.mem_of_getElem? found)
  refine ⟨(List.getElem?_eq_some_iff.mp there).1, ?_, ?_⟩
  · intro c member
    have other : c.task it ≤ total (Call.task it) s.calls := weight_le_total _ member
    omega
  · intro time member
    rcases List.mem_append.mp member with member | member
    · have other := weight_le_total (fun task : ℤ × ℕ => if task.2 = it then 1 else 0) member
      simp only [↓reduceIte] at other
      omega
    · cases List.mem_singleton.mp member
      exact ⟨n, there, le⟩

/-- When `ProcessCacheEntry` calls `getaddrinfo`. -/
theorem process_resolving {it now k : ℕ} {n : Node κ A}
    (resolving : (process opt it n now).1 = .resolving k) :
    Clock.add n.data.resolved_at opt.dns_cache_refresh_period ≤ now ∧
      (n.data.callbacks = [] →
        now < Clock.add n.data.used_at opt.dns_cache_refresh_duration) := by
  unfold process at resolving
  split at resolving
  · cases resolving
  · rename_i kept
    split at resolving
    · rename_i stale
      refine ⟨stale, fun empty => ?_⟩
      apply Int.lt_of_not_ge
      exact fun unused => kept ⟨empty, unused⟩
    · unfold drain at resolving
      split at resolving <;> cases resolving

/-- Only the task of an entry erases it, and when. -/
theorem erased_cases (single : SingleTask s) (moved : Moved opt s a t) {i : ℕ} {k : Node κ A}
    (before : s.node i = some k) (gone : t.node i = none) :
    ∃ j now, a = .lockWorker j ∧ s.workers[j]? = some (.locking i now) ∧
      Clock.add k.data.used_at opt.dns_cache_refresh_duration ≤ now := by
  cases moved with
  | tick | call | schedules | calls | starts | looksUp | reads | callsBack | relocks
  | reschedules => exact absurd (before.symm.trans gone) (by simp)
  | creates found absent =>
      rw [node_append (s := s) rfl rfl] at gone
      split at gone
      · cases gone
      · exact absurd (before.symm.trans gone) (by simp)
  | queues found cached node busy => exact (not_erased before gone node rfl rfl).elim
  | answers found cached node idle => exact (not_erased before gone node rfl rfl).elim
  | @erases j it now n found node empty unused =>
      rw [node_set (s := s) rfl node] at gone
      split at gone
      · rename_i same
        subst same
        cases Option.some.inj (node.symm.trans before)
        exact ⟨j, now, rfl, found, unused⟩
      · exact absurd (before.symm.trans gone) (by simp)
  | skips found node recent =>
      exact (not_erased before gone node rfl (drain_present _ _ _)).elim
  | returns found node result => exact (not_erased before gone node rfl rfl).elim
  | records found node =>
      exact (not_erased before gone node rfl (drain_present _ _ _)).elim
  | dangles found uses erased => exact absurd erased (single.node_ne_none found uses)

/-- What holds of the times of the entries in every state. -/
structure Retained (opt : Options) (s : State κ A) : Prop where
  resolved : ∀ n ∈ s.nodes, n.Resolved
  planned : ∀ w ∈ s.workers, w.Planned opt s
  recorded : Recorded s

theorem init_retained (init : Init s) : Retained opt s := by
  obtain ⟨clock, rfl⟩ := init
  exact ⟨by simp, by simp, by simp, by simp⟩

theorem retained_kept (single : SingleTask s) (history : History s) (inv : Retained opt s)
    (moved : Moved opt s a t) : Retained opt t ∧ Ages s.nodes t.nodes := by
  have ages := ages_of_moved single history inv.resolved moved
  exact ⟨⟨resolved_kept single history inv.resolved moved,
    planned_kept single ages inv.planned moved,
    recorded_kept single ages inv.planned inv.recorded moved⟩, ages⟩

end Step

section Runs

variable [DecidableEq κ] {s t : State κ A}

theorem retained_of_reachable (reach : Reachable opt s) : Retained opt s := by
  induction reach with
  | start initial => exact init_retained initial
  | move before moved ih =>
      obtain ⟨a, allowed, stepped⟩ := moved
      exact (retained_kept (ReachableIf.singleTask before) (ReachableIf.history before) ih
        (step_cases stepped)).1

theorem replay_ages {actions : List (Action κ A)} (reach : Reachable opt s)
    (ran : Runs.replay (step opt) s actions = some t) : Ages s.nodes t.nodes := by
  induction actions generalizing s with
  | nil =>
      cases ran
      exact .refl _
  | cons a rest ih =>
      obtain ⟨u, stepped, ran⟩ := Option.bind_eq_some_iff.mp ran
      have ages := (retained_kept (ReachableIf.singleTask reach) (ReachableIf.history reach)
        (retained_of_reachable reach) (step_cases stepped)).2
      exact ages.trans (ih (.move reach ⟨a, trivial, stepped⟩) ran)

theorem replay_executed {actions : List (Action κ A)} {it : ℕ} (reach : Reachable opt s)
    (executed : Executed opt it s) (ran : Runs.replay (step opt) s actions = some t) :
    Executed opt it t := by
  induction actions generalizing s with
  | nil =>
      cases ran
      exact executed
  | cons a rest ih =>
      obtain ⟨u, stepped, ran⟩ := Option.bind_eq_some_iff.mp ran
      have single := ReachableIf.singleTask reach
      have inv := retained_of_reachable reach
      have ages := (retained_kept single (ReachableIf.history reach) inv (step_cases stepped)).2
      refine ih (.move reach ⟨a, trivial, stepped⟩) ?_ ran
      exact executed_kept single ages inv.planned executed (step_cases stepped)

/-- Retention and refresh. The times of an entry never go back and a queue is drained once. Where
the sums do not overflow, an entry is erased only by a task whose reading of the clock is as late
as every use of it plus `dns_cache_refresh_duration`, and a lookup begins no earlier than
`dns_cache_refresh_period` after each one before was recorded. Once its task has been executed an
entry never waits for longer than `dns_cache_refresh_period` after the last lookup, and, unless
somebody waits for it, a lookup begins only while the last use is less than
`dns_cache_refresh_duration` ago. -/
theorem retention_of_reachable (reach : Reachable opt s) :
    (∀ n ∈ s.nodes, n.data.successfully_resolved_at ≤ n.data.resolved_at) ∧
    (∀ actions t, Runs.replay (step opt) s actions = some t → Ages s.nodes t.nodes) ∧
    (∀ a t it n, step opt s a = some t → s.node it = some n → t.node it = none →
      ∃ j now, a = .lockWorker j ∧ s.workers[j]? = some (.locking it now) ∧ now ≤ s.clock ∧
        (Clock.Fits n.data.used_at opt.dns_cache_refresh_duration →
          ∀ u, s.Used it u → u + opt.dns_cache_refresh_duration.toInt ≤ now)) ∧
    (∀ j it next actions t, s.workers[j]? = some (.scheduling it next) →
      Runs.replay (step opt) s (.schedule j :: actions) = some t →
      ∀ time n, (time, it) ∈ t.tasks → t.nodes[it]? = some n →
        time ≤ n.data.resolved_at + opt.dns_cache_refresh_period.toInt) ∧
    (∀ j it now n t, s.workers[j]? = some (.locking it now) → s.node it = some n →
      step opt s (.lockWorker j) = some t → t.workers[j]? = some (.resolving it) →
      now ≤ s.clock ∧
      (Clock.Fits n.data.resolved_at opt.dns_cache_refresh_period → ∀ l ∈ n.lookups,
        ∃ r, l.recorded = some r ∧ r + opt.dns_cache_refresh_period.toInt ≤ now) ∧
      (n.data.callbacks = [] →
        now < n.data.used_at + opt.dns_cache_refresh_duration.toInt)) := by
  have single := ReachableIf.singleTask reach
  have history := ReachableIf.history reach
  have inv := retained_of_reachable reach
  refine ⟨fun n member => (inv.resolved n member).success, fun _ _ ran => replay_ages reach ran,
    ?_, ?_, ?_⟩
  · intro a t it n stepped before gone
    obtain ⟨j, now, isLock, found, unused⟩ := erased_cases single (step_cases stepped) before gone
    refine ⟨j, now, isLock, found, inv.planned _ (List.mem_of_getElem? found), ?_⟩
    intro fits u used
    have le := inv.recorded.le_used_at inv.planned (State.node_eq_some.mp before).1 used
    rw [Clock.add_of_fits fits] at unused
    omega
  · intro j it next actions t found ran time n member node
    obtain ⟨u, stepped, ran⟩ := Option.bind_eq_some_iff.mp ran
    have after : u = { s with tasks := s.tasks ++ [(next, it)], workers := s.workers.set j .done } := by
      simp only [step, found, Option.some.injEq] at stepped
      exact stepped.symm
    have executed : Executed opt it u := after ▸ executed_of_scheduled single inv.planned found
    obtain ⟨m, there, le⟩ :=
      (replay_executed (.move reach ⟨_, trivial, stepped⟩) executed ran).tasks time member
    cases Option.some.inj (there.symm.trans node)
    exact le
  · intro j it now n t found node stepped resolving
    obtain ⟨inside, -⟩ := List.getElem?_eq_some_iff.mp found
    have process : (process opt it n now).1 = .resolving it := by
      simp only [step, found, node, Option.some.injEq] at stepped
      subst stepped
      simpa [inside] using resolving
    obtain ⟨stale, used⟩ := process_resolving process
    obtain ⟨there, -⟩ := State.node_eq_some.mp node
    have mine : (Worker.locking it now : Worker κ A).task it = 1 := by simp [Worker.task]
    have settled := history.settled_of_worker single found mine rfl there
    refine ⟨inv.planned _ (List.mem_of_getElem? found), fun fits l member => ?_, fun empty => ?_⟩
    · obtain ⟨r, known⟩ := Option.ne_none_iff_exists'.mp (settled l member)
      have le := (inv.resolved n (List.mem_of_getElem? there)).recorded l member r known
      rw [Clock.add_of_fits fits] at stale
      exact ⟨r, known, by omega⟩
    · exact Int.lt_of_lt_of_le (used empty) (Clock.add_le _ _)

end Runs

/-- A name that nobody has asked for since it was looked up at 5. -/
def leftAlone : State ℕ ℕ where
  clock := 15
  nodes := [{
    key := [97]
    data := { used_at := 5, resolved_at := 5, use_count := 1 }
    lookups := [⟨5, none, some 5, 0⟩]
    uses := 1 }]
  calls := [.done]
  workers := [.done, .locking 0 15]
  issued := [0]
  answers := [⟨0, none, 0, 0, 5, [⟨5, none, some 5, 0⟩]⟩]

theorem leftAlone_reachable : Reachable ⟨4, 3, 9⟩ leftAlone :=
  Runs.replay_reachable
    [.call [97] 0, .lockCall 0, .scheduleCall 0, .start 0, .lockWorker 0, .returnResolve 0 none,
      .readClock 0, .lockRecord 0, .callback 0, .relock 0, .schedule 0, .tick 10, .start 0]
    (.start ⟨5, rfl⟩) rfl

theorem retention_of_reachable_leftAlone :
    ∃ t, step ⟨4, 3, 9⟩ leftAlone (.lockWorker 1) = some t ∧ t.node 0 = none ∧
      leftAlone.Used 0 5 ∧ ∀ u, leftAlone.Used 0 u → u + 9 ≤ 15 := by
  refine ⟨_, rfl, rfl, .given List.mem_cons_self rfl rfl, fun u used => ?_⟩
  obtain ⟨j, now, isLock, found, -, uses⟩ :=
    (retention_of_reachable leftAlone_reachable).2.2.1 (.lockWorker 1) _ 0 _ rfl rfl rfl
  cases isLock
  cases found
  have fits : Clock.Fits 5 9 := by decide
  have late : u + 9 ≤ (15 : ℤ) := uses fits u used
  omega

end Hcproxy.Dns
