import Hcproxy.DnsHistory

set_option autoImplicit false

namespace Hcproxy.Dns

open Ring (Cursor)
open Threads

variable {κ A : Type} {opt : Options}

/-- The result of a lookup, if it was a success and has been recorded. -/
def Lookup.success (l : Lookup A) : Option (Cursor A) :=
  if l.recorded.isSome then l.result else none

/-- For each recorded success, the number of answers given before it was recorded. -/
def refreshes (lookups : List (Lookup A)) : List ℕ :=
  (lookups.filter (·.success.isSome)).map Lookup.uses

/-- The number of answers given before the last refresh. -/
def lastRefresh (lookups : List (Lookup A)) : ℕ := (refreshes lookups).getLast?.getD 0

/-- The number of answers given before the last refresh but one, which is where the code starts
to count addresses from. -/
def base (lookups : List (Lookup A)) : ℕ := (refreshes lookups).dropLast.getLast?.getD 0

/-- The result of the last recorded success. -/
def current (lookups : List (Lookup A)) : Option (Cursor A) :=
  (lookups.filterMap Lookup.success).getLast?

/-- The address that goes with the `k`-th answer. -/
def pick (lookups : List (Lookup A)) (k : ℕ) : Option (Cursor A) :=
  (current lookups).map (Cursor.next^[k - base lookups])

/-- The loop takes as many steps around the ring as there are uses to account for. It starts at
the head, and the shortcut fires at most once: after it, fewer uses are left than the ring has
items. -/
theorem rotate_spec {addr p : Cursor A} {fuel i u : ℕ} (head : addr.pos = 0) (enough : u ≤ fuel)
    (place : p.pos = i ∨ p.pos + u < p.items.length) :
    rotate addr fuel i u p = (0, Cursor.next^[u] p) := by
  induction fuel generalizing i u p with
  | zero =>
      cases Nat.le_zero.mp enough
      rfl
  | succ fuel ih =>
      cases u with
      | zero => rfl
      | succ u =>
          simp only [rotate, Nat.add_one_ne_zero, ↓reduceIte, Nat.add_sub_cancel, head,
            Function.iterate_succ_apply]
          have inside := p.inside
          by_cases around : p.next.pos = 0
          · have last := p.next_pos_eq_zero.mp around
            have counted : p.pos = i := by omega
            have fewer : u % (i + 1) < p.items.length := by
              rw [← last, ← counted]
              exact Nat.mod_lt _ (Nat.succ_pos _)
            have small : u % (i + 1) ≤ fuel := Nat.le_trans (Nat.mod_le _ _) (by omega)
            rw [if_pos around, ih small (Or.inr (by rw [around, Cursor.next_items]; omega))]
            refine congrArg (Prod.mk 0) (Cursor.ext_pos (by simp) ?_)
            simp only [Cursor.iterate_pos, around, Nat.zero_add, Cursor.next_items]
            rw [← counted, last, Nat.mod_mod]
          · have more : p.pos + 1 < p.items.length := by
              have := p.next_pos_eq_zero.not.mp around
              omega
            rw [if_neg around, ih (by omega)]
            rw [Cursor.next_pos_of_lt more, Cursor.next_items]
            omega

theorem advance_pick {lookups : List (Lookup A)} {k : ℕ} (le : base lookups ≤ k) :
    advance (pick lookups k) = pick lookups (k + 1) := by
  have later : k + 1 - base lookups = (k - base lookups) + 1 := by omega
  unfold advance pick
  rw [later, Option.map_map]
  congr 1
  funext p
  exact (Function.iterate_succ_apply' _ _ p).symm

@[simp] theorem refreshes_append (lookups : List (Lookup A)) (l : Lookup A) :
    refreshes (lookups ++ [l]) =
      refreshes lookups ++ if l.success.isSome then [l.uses] else [] := by
  unfold refreshes
  rw [List.filter_append, List.map_append]
  congr 1
  cases success : l.success <;> simp [success]

/-- A lookup that is not recorded or that failed does not count. -/
theorem unsuccessful_append (lookups : List (Lookup A)) {l : Lookup A} (failed : l.success = none) :
    lastRefresh (lookups ++ [l]) = lastRefresh lookups ∧
    base (lookups ++ [l]) = base lookups ∧ current (lookups ++ [l]) = current lookups := by
  simp [lastRefresh, base, current, failed]

theorem successful_append (lookups : List (Lookup A)) {l : Lookup A} {p : Cursor A}
    (success : l.success = some p) :
    lastRefresh (lookups ++ [l]) = l.uses ∧
    base (lookups ++ [l]) = lastRefresh lookups ∧ current (lookups ++ [l]) = some p := by
  simp [lastRefresh, base, current, success]

theorem current_eq_none {lookups : List (Lookup A)} (none : current lookups = none)
    {l : Lookup A} (member : l ∈ lookups) (recorded : l.recorded ≠ Option.none) :
    l.result = Option.none := by
  simp only [current, List.getLast?_eq_none_iff, List.filterMap_eq_nil_iff] at none
  have failed := none l member
  rw [Lookup.success, if_pos (Option.isSome_iff_ne_none.mpr recorded)] at failed
  exact failed

/-- What the data of an entry tells of its history. -/
structure Node.Told (n : Node κ A) : Prop where
  heads : ∀ l ∈ n.lookups, ∀ p ∈ l.result, p.pos = 0
  finished : ∀ l ∈ n.lookups, ∀ r ∈ l.recorded, l.finished ≤ r
  recent : ∀ l ∈ n.lookups, ∀ r ∈ l.recorded, l.result.isSome →
    r ≤ n.data.successfully_resolved_at
  addr : n.data.addr = pick n.lookups n.uses
  count : n.data.use_count + lastRefresh n.lookups = n.uses
  base : base n.lookups ≤ lastRefresh n.lookups

theorem Node.Told.base_le {n : Node κ A} (told : n.Told) : Dns.base n.lookups ≤ n.uses := by
  have := told.count
  have := told.base
  omega

theorem Node.Told.current_none {n : Node κ A} (told : n.Told) (null : n.data.addr = none) :
    current n.lookups = none := by
  have same := told.addr.symm.trans null
  simpa [pick] using same

theorem Node.Told.use {n : Node κ A} (told : n.Told) (now : ℕ) :
    Node.Told { n with data := n.data.use now, uses := n.uses + 1 } := by
  refine ⟨told.heads, told.finished, told.recent, ?_, ?_, told.base⟩
  · simp only [CacheData.use, told.addr, advance_pick told.base_le]
  · have := told.count
    simp only [CacheData.use]
    omega

/-- The queue is not part of the history. -/
theorem Node.Told.queue {n : Node κ A} (told : n.Told) (callbacks : List κ) :
    Node.Told { n with data := { n.data with callbacks } } :=
  ⟨told.heads, told.finished, told.recent, told.addr, told.count, told.base⟩

theorem Node.Told.uses {n : Node κ A} (told : n.Told) (now k : ℕ) :
    Node.Told { n with data := (CacheData.use · now)^[k] n.data, uses := n.uses + k } := by
  induction k generalizing n with
  | zero => exact told
  | succ k ih =>
      have used := ih (told.use now)
      rwa [Nat.add_assoc, Nat.add_comm 1 k] at used

theorem Node.Told.drain {n : Node κ A} (told : n.Told) (it now : ℕ) :
    Node.Told (drain opt it n now).2 := by
  unfold Dns.drain
  split
  · exact told
  · exact (told.queue []).uses now _

theorem Node.Told.returned {n : Node κ A} (told : n.Told) (finished : ℕ)
    {addr : Option (Cursor A)} (head : ∀ p ∈ addr, p.pos = 0) :
    Node.Told { n with lookups := n.lookups ++ [⟨finished, addr, none, 0⟩] } := by
  obtain ⟨last, sameBase, same⟩ :=
    unsuccessful_append n.lookups (l := ⟨finished, addr, none, 0⟩) rfl
  refine ⟨?_, ?_, ?_, ?_, ?_, ?_⟩
  · intro l member
    rcases List.mem_append.mp member with member | member
    · exact told.heads l member
    · cases List.mem_singleton.mp member
      exact head
  · intro l member r recorded
    rcases List.mem_append.mp member with member | member
    · exact told.finished l member r recorded
    · cases List.mem_singleton.mp member
      cases recorded
  · intro l member r recorded
    rcases List.mem_append.mp member with member | member
    · exact told.recent l member r recorded
    · cases List.mem_singleton.mp member
      cases recorded
  · simp only [pick, same, sameBase]
    exact told.addr
  · rw [last]
    exact told.count
  · rw [last, sameBase]
    exact told.base

/-- The lookups of an entry once the one that it awaits has been recorded. -/
theorem Node.Awaits.record {n : Node κ A} {lookup bound : ℕ} {addr : Option (Cursor A)}
    (awaits : n.Awaits lookup addr bound) (now : ℕ) : ∃ earlier finished,
    n.lookups = earlier ++ [⟨finished, addr, none, 0⟩] ∧ finished ≤ bound ∧
    (∀ l ∈ earlier, ∃ r, l.recorded = some r ∧ r ≤ bound) ∧
    (n.record lookup addr now).lookups = earlier ++ [⟨finished, addr, some now, n.uses⟩] := by
  obtain ⟨earlier, finished, lookups, rfl, before, recorded⟩ := awaits
  refine ⟨earlier, finished, lookups, before, recorded, ?_⟩
  simp only [Node.record, lookups, recordLookup_append]

theorem Node.Told.recordFailure {n : Node κ A} (told : n.Told) {lookup now : ℕ}
    (awaits : n.Awaits lookup none now) : (n.record lookup none now).Told := by
  obtain ⟨earlier, finished, lookups, before, _, after⟩ := awaits.record now
  have old := unsuccessful_append earlier (l := ⟨finished, none, none, 0⟩) rfl
  have new := unsuccessful_append earlier (l := ⟨finished, none, some now, n.uses⟩) rfl
  rw [← lookups] at old
  rw [← after] at new
  have was : ∀ l ∈ earlier, l ∈ n.lookups := by
    intro l member
    simp [lookups, member]
  refine ⟨?_, ?_, ?_, ?_, ?_, ?_⟩
  · intro l member
    rcases List.mem_append.mp (after ▸ member) with member | member
    · exact told.heads l (was l member)
    · cases List.mem_singleton.mp member
      simp
  · intro l member r recorded
    rcases List.mem_append.mp (after ▸ member) with member | member
    · exact told.finished l (was l member) r recorded
    · cases List.mem_singleton.mp member
      cases recorded
      exact before
  · intro l member r recorded
    rcases List.mem_append.mp (after ▸ member) with member | member
    · exact told.recent l (was l member) r recorded
    · cases List.mem_singleton.mp member
      simp
  · have same := told.addr
    unfold pick at same ⊢
    rw [new.2.1, new.2.2, ← old.2.1, ← old.2.2]
    exact same
  · rw [new.1, ← old.1]
    exact told.count
  · rw [new.1, new.2.1, ← old.1, ← old.2.1]
    exact told.base

/-- A recorded success takes over from the one before: it hands out addresses from where that
one would have been had it started at its own last refresh. -/
theorem Node.Told.recordSuccess {n : Node κ A} (told : n.Told) {lookup now : ℕ} {p : Cursor A}
    (awaits : n.Awaits lookup (some p) now) : (n.record lookup (some p) now).Told := by
  obtain ⟨earlier, finished, lookups, before, recorded, after⟩ := awaits.record now
  have old := unsuccessful_append earlier (l := ⟨finished, some p, none, 0⟩) rfl
  have new := successful_append earlier (l := ⟨finished, some p, some now, n.uses⟩) rfl
  rw [← lookups] at old
  rw [← after] at new
  have head : p.pos = 0 := told.heads ⟨finished, some p, none, 0⟩ (by simp [lookups]) p rfl
  have rotated := rotate_spec (u := n.data.use_count) head (Nat.le_refl _) (Or.inl head)
  have count := told.count
  refine ⟨?_, ?_, ?_, ?_, ?_, ?_⟩
  · intro l member
    rcases List.mem_append.mp (after ▸ member) with member | member
    · exact told.heads l (by simp [lookups, member])
    · cases List.mem_singleton.mp member
      simpa using head
  · intro l member r isRecorded
    rcases List.mem_append.mp (after ▸ member) with member | member
    · exact told.finished l (by simp [lookups, member]) r isRecorded
    · cases List.mem_singleton.mp member
      cases isRecorded
      exact before
  · intro l member r isRecorded _
    change r ≤ now
    rcases List.mem_append.mp (after ▸ member) with member | member
    · obtain ⟨r', same, early⟩ := recorded l member
      cases Option.some.inj (same.symm.trans isRecorded)
      exact early
    · cases List.mem_singleton.mp member
      cases isRecorded
      exact Nat.le_refl _
  · have steps : n.uses - lastRefresh earlier = n.data.use_count := by
      rw [← old.1]
      omega
    unfold pick
    rw [new.2.1, new.2.2, Option.map_some]
    change some (rotate p n.data.use_count 0 n.data.use_count p).2 = _
    rw [rotated]
    exact congrArg (fun k => some (Cursor.next^[k] p)) steps.symm
  · rw [new.1]
    change (rotate p n.data.use_count 0 n.data.use_count p).1 + n.uses = n.uses
    rw [rotated]
    exact Nat.zero_add _
  · rw [new.1, new.2.1, ← old.1]
    change lastRefresh n.lookups ≤ n.uses
    omega

theorem Node.Told.record {n : Node κ A} (told : n.Told) {lookup now : ℕ}
    {addr : Option (Cursor A)} (awaits : n.Awaits lookup addr now) :
    (n.record lookup addr now).Told := by
  cases addr with
  | none => exact told.recordFailure awaits
  | some p => exact told.recordSuccess awaits

/-- Every answer has `P`: those given, those that a call of `Resolve` is about to give, and the
next one of each worker that runs a queue. -/
structure Answers (P : Answer κ A → Prop) (s : State κ A) : Prop where
  given : ∀ a ∈ s.answers, P a
  due : ∀ a, .calling a ∈ s.calls → P a
  next : ∀ it callbacks addr index now seen,
    .calling it callbacks addr index now seen ∈ s.workers → ∀ cb,
      P ⟨cb, addr, it, index, now, seen⟩

/-- The ways `ProcessCacheEntry` gets to the queue: `m` is its node by then. -/
inductive Drains (opt : Options) (s : State κ A) : Action κ A → ℕ → ℕ → Node κ A → Prop
  | skipped {j it now : ℕ} {n : Node κ A} (found : s.workers[j]? = some (.locking it now))
    (node : s.node it = some n)
    (recent : now < Clock.add n.data.resolved_at opt.dns_cache_refresh_period) :
    Drains opt s (.lockWorker j) it now n
  | recorded {j it now lookup : ℕ} {addr : Option (Cursor A)} {n : Node κ A}
    (found : s.workers[j]? = some (.recording it lookup addr now)) (node : s.node it = some n) :
    Drains opt s (.lockRecord j) it now (n.record lookup addr now)

/-- The answers that a call of `Resolve` is about to give. -/
theorem due_kept {P : Answer κ A → Prop} {s t : State κ A} {a : Action κ A}
    (single : SingleTask s) (due : ∀ b, .calling b ∈ s.calls → P b) (moved : Moved opt s a t)
    (resolve : ∀ i host_port cb now it n, a = .lockCall i →
      s.calls[i]? = some (.locking host_port cb now) → s.find host_port = some it →
      s.node it = some n → n.data.callbacks = [] →
      P ⟨cb, if now < Clock.add n.data.successfully_resolved_at opt.dns_cache_ttl then n.data.addr
        else none, it, n.uses, now, n.lookups⟩) : ∀ b, .calling b ∈ t.calls → P b := by
  have moves : ∀ {i : ℕ} {y : Call κ A}, (∀ answer, y = .calling answer → P answer) →
      ∀ answer, .calling answer ∈ s.calls.set i y → P answer := by
    intro i y ok answer member
    rcases mem_set member with same | member
    · exact ok answer same.symm
    · exact due answer member
  cases moved with
  | call fresh =>
      intro answer member
      rcases List.mem_append.mp member with member | member
      · exact due answer member
      · cases List.mem_singleton.mp member
  | creates | queues | schedules | calls => exact moves (by simp)
  | answers found cached node idle =>
      refine moves ?_
      rintro answer same
      cases same
      exact resolve _ _ _ _ _ _ rfl found cached node idle
  | dangles found uses erased => exact absurd erased (single.node_ne_none found uses)
  | tick | starts | erases | looksUp | skips | returns | reads | records | callsBack | relocks
  | reschedules => exact due

/-- The next answers of the workers that run a queue. -/
theorem next_kept {P : Answer κ A → Prop} {s t : State κ A} {a : Action κ A}
    (single : SingleTask s)
    (running : ∀ it callbacks addr index now seen,
      .calling it callbacks addr index now seen ∈ s.workers → ∀ cb,
        P ⟨cb, addr, it, index, now, seen⟩)
    (moved : Moved opt s a t)
    (next : ∀ cb other addr it index now seen, P ⟨cb, addr, it, index, now, seen⟩ →
      P ⟨other, advance addr, it, index + 1, now, seen⟩)
    (queue : ∀ it now m, Drains opt s a it now m → m.data.callbacks ≠ [] → ∀ cb,
      P ⟨cb, m.data.addr, it, m.uses, now, m.lookups⟩) :
    ∀ it callbacks addr index now seen,
      .calling it callbacks addr index now seen ∈ t.workers → ∀ cb,
        P ⟨cb, addr, it, index, now, seen⟩ := by
  have passes : ∀ {j : ℕ} {y : Worker κ A}, (∀ it callbacks addr index now seen,
      y = .calling it callbacks addr index now seen → ∀ cb, P ⟨cb, addr, it, index, now, seen⟩) →
      ∀ it callbacks addr index now seen,
        .calling it callbacks addr index now seen ∈ s.workers.set j y → ∀ cb,
          P ⟨cb, addr, it, index, now, seen⟩ := by
    intro j y ok it callbacks addr index now seen member
    rcases mem_set member with same | member
    · exact ok _ _ _ _ _ _ same.symm
    · exact running _ _ _ _ _ _ member
  have drained : ∀ {it now : ℕ} {m : Node κ A}, Drains opt s a it now m →
      ∀ i callbacks addr index t seen,
        (drain opt it m now).1 = .calling i callbacks addr index t seen → ∀ cb,
          P ⟨cb, addr, i, index, t, seen⟩ := by
    intro it now m drains i callbacks addr index t seen same
    unfold Dns.drain at same
    split at same
    · cases same
    · rename_i more
      cases same
      exact queue _ _ _ drains more
  cases moved with
  | starts found due =>
      intro i callbacks addr index now seen member
      rcases List.mem_append.mp member with member | member
      · exact running i callbacks addr index now seen member
      · cases List.mem_singleton.mp member
  | skips found node recent => exact passes (drained (.skipped found node recent))
  | records found node => exact passes (drained (.recorded found node))
  | @callsBack j it index now cb rest addr seen found =>
      have current := running _ _ _ _ _ _ (List.mem_of_getElem? found)
      refine passes ?_
      intro i callbacks p k t known same
      cases same
      exact fun other => next cb other addr it index now seen (current cb)
  | erases | looksUp | returns | reads | relocks | reschedules => exact passes (by simp)
  | dangles found uses erased => exact absurd erased (single.node_ne_none found uses)
  | tick | call | creates | queues | answers | schedules | calls => exact running

/-- The answers that have been given were due, or next for a worker. -/
theorem given_kept {P : Answer κ A → Prop} {s t : State κ A} {a : Action κ A}
    (given : ∀ b ∈ s.answers, P b) (due : ∀ b, .calling b ∈ s.calls → P b)
    (running : ∀ it callbacks addr index now seen,
      .calling it callbacks addr index now seen ∈ s.workers → ∀ cb ∈ callbacks,
        P ⟨cb, addr, it, index, now, seen⟩)
    (moved : Moved opt s a t) : ∀ b ∈ t.answers, P b := by
  cases moved with
  | calls found =>
      intro answer member
      rcases List.mem_append.mp member with member | member
      · exact given answer member
      · cases List.mem_singleton.mp member
        exact due _ (List.mem_of_getElem? found)
  | callsBack found =>
      intro answer member
      rcases List.mem_append.mp member with member | member
      · exact given answer member
      · cases List.mem_singleton.mp member
        exact running _ _ _ _ _ _ (List.mem_of_getElem? found) _ List.mem_cons_self
  | tick | call | creates | queues | answers | schedules | starts | erases | looksUp | skips
  | returns | reads | records | relocks | reschedules | dangles => exact given

theorem answers_kept {P : Answer κ A → Prop} {s t : State κ A} {a : Action κ A}
    (single : SingleTask s) (inv : Answers P s) (moved : Moved opt s a t)
    (next : ∀ cb other addr it index now seen, P ⟨cb, addr, it, index, now, seen⟩ →
      P ⟨other, advance addr, it, index + 1, now, seen⟩)
    (resolve : ∀ i host_port cb now it n, a = .lockCall i →
      s.calls[i]? = some (.locking host_port cb now) → s.find host_port = some it →
      s.node it = some n → n.data.callbacks = [] →
      P ⟨cb, if now < Clock.add n.data.successfully_resolved_at opt.dns_cache_ttl then n.data.addr
        else none, it, n.uses, now, n.lookups⟩)
    (queue : ∀ it now m, Drains opt s a it now m → m.data.callbacks ≠ [] → ∀ cb,
      P ⟨cb, m.data.addr, it, m.uses, now, m.lookups⟩) : Answers P t :=
  ⟨given_kept inv.given inv.due
      (fun _ _ _ _ _ _ member cb _ => inv.next _ _ _ _ _ _ member cb) moved,
    due_kept single inv.due moved resolve, next_kept single inv.next moved next queue⟩

/-- Every entry has `P` if each of the ways to write to one establishes it. -/
theorem nodes_kept {P : Node κ A → Prop} {s t : State κ A} {a : Action κ A}
    (single : SingleTask s) (inv : ∀ n ∈ s.nodes, P n) (moved : Moved opt s a t)
    (created : ∀ key cb, P { key, data := { callbacks := [cb] } })
    (queued : ∀ (n : Node κ A) (cb : κ), P n → n.data.callbacks ≠ [] →
      P { n with data := { n.data with callbacks := n.data.callbacks ++ [cb] } })
    (used : ∀ (n : Node κ A) (now : ℕ), P n → n.data.callbacks = [] →
      P { n with data := n.data.use now, uses := n.uses + 1 })
    (erased : ∀ n : Node κ A, P n → n.data.callbacks = [] → P { n with present := false })
    (returned : ∀ (n : Node κ A) (finished : ℕ) (addr : Option (Cursor A)), P n →
      (∀ p ∈ addr, p.pos = 0) →
      P { n with lookups := n.lookups ++ [⟨finished, addr, none, 0⟩] })
    (drained : ∀ it now m, Drains opt s a it now m → P (drain opt it m now).2) :
    ∀ n ∈ t.nodes, P n := by
  have old : ∀ {it : ℕ} {n : Node κ A}, s.node it = some n → P n := by
    intro it n node
    exact inv n (List.mem_of_getElem? (State.node_eq_some.mp node).1)
  have written : ∀ {it : ℕ} {m : Node κ A}, P m → ∀ n ∈ s.nodes.set it m, P n := by
    intro it m holds n member
    rcases mem_set member with rfl | member
    · exact holds
    · exact inv n member
  cases moved with
  | creates found absent =>
      intro n member
      rcases List.mem_append.mp member with member | member
      · exact inv n member
      · cases List.mem_singleton.mp member
        exact created _ _
  | queues found cached node busy => exact written (queued _ _ (old node) busy)
  | answers found cached node idle => exact written (used _ _ (old node) idle)
  | erases found node empty unused => exact written (erased _ (old node) empty)
  | returns found node result =>
      refine written (returned _ _ _ (old node) ?_)
      intro p isResult
      obtain ⟨items, _, rfl⟩ := Option.map_eq_some_iff.mp isResult
      rfl
  | skips found node recent => exact written (drained _ _ _ (.skipped found node recent))
  | records found node => exact written (drained _ _ _ (.recorded found node))
  | tick | call | schedules | calls | starts | looksUp | reads | callsBack | relocks
  | reschedules => exact inv
  | dangles found uses erased => exact absurd erased (single.node_ne_none found uses)

/-- What every answer owes to the lookups that had returned when it was picked. -/
structure Answer.Sound (a : Answer κ A) : Prop where
  heads : ∀ l ∈ a.seen, ∀ p ∈ l.result, p.pos = 0
  base : base a.seen ≤ a.index
  addr : a.addr = none ∨ a.addr = pick a.seen a.index

/-- Nothing has been recorded for the entry yet, and nothing been answered from it. -/
def Node.Fresh (n : Node κ A) : Prop :=
  n.data = { callbacks := n.data.callbacks } ∧ n.uses = 0 ∧ ∀ l ∈ n.lookups, l.recorded = none

/-- The queue of an entry fills up only until its first execution drains it. -/
structure Explained (s : State κ A) : Prop where
  told : ∀ n ∈ s.nodes, n.Told
  fresh : ∀ n ∈ s.nodes, n.data.callbacks ≠ [] → n.Fresh
  answers : Answers Answer.Sound s

theorem Node.Told.sound {n : Node κ A} (told : n.Told) {addr : Option (Cursor A)}
    (picked : addr = none ∨ addr = n.data.addr) (cb : κ) (it now : ℕ) :
    Answer.Sound ⟨cb, addr, it, n.uses, now, n.lookups⟩ :=
  ⟨told.heads, told.base_le, picked.imp_right fun same => same.trans told.addr⟩

theorem Answer.Sound.next {cb other : κ} {addr : Option (Cursor A)} {it index now : ℕ}
    {seen : List (Lookup A)} (sound : Answer.Sound ⟨cb, addr, it, index, now, seen⟩) :
    Answer.Sound ⟨other, advance addr, it, index + 1, now, seen⟩ := by
  refine ⟨sound.heads, Nat.le_succ_of_le sound.base, ?_⟩
  rcases sound.addr with null | picked
  · left
    change addr = none at null
    simp [null, advance]
  · right
    change addr = pick seen index at picked
    change advance addr = pick seen (index + 1)
    rw [picked, advance_pick sound.base]

theorem drain_idle (it : ℕ) (n : Node κ A) (now : ℕ) :
    (drain opt it n now).2.data.callbacks = [] := by
  unfold drain
  split
  · assumption
  · simp

theorem explained_kept {s t : State κ A} {a : Action κ A} (single : SingleTask s)
    (history : History s) (inv : Explained s) (moved : Moved opt s a t) : Explained t := by
  have known : ∀ {it : ℕ} {n : Node κ A}, s.node it = some n → n ∈ s.nodes := by
    intro it n node
    exact List.mem_of_getElem? (State.node_eq_some.mp node).1
  refine ⟨?_, ?_, ?_⟩
  · refine nodes_kept single inv.told moved ?_ ?_ ?_ ?_ ?_ ?_
    · intro key cb
      exact ⟨by simp, by simp, by simp, rfl, rfl, Nat.le_refl _⟩
    · exact fun n cb told _ => told.queue _
    · exact fun n now told _ => told.use now
    · exact fun n told _ => ⟨told.heads, told.finished, told.recent, told.addr, told.count, told.base⟩
    · exact fun n finished addr told head => told.returned finished head
    · intro it now m drains
      cases drains with
      | skipped found node recent => exact (inv.told _ (known node)).drain it now
      | recorded found node =>
          exact ((inv.told _ (known node)).record (history.awaits_of_recording found node)).drain it now
  · refine nodes_kept (P := fun n => n.data.callbacks ≠ [] → n.Fresh) single inv.fresh moved
      ?_ ?_ ?_ ?_ ?_ ?_
    · exact fun key cb _ => ⟨rfl, rfl, by simp⟩
    · intro n cb fresh busy _
      obtain ⟨data, uses, lookups⟩ := fresh busy
      refine ⟨?_, uses, lookups⟩
      rw [data]
    · exact fun n now _ idle busy => absurd idle busy
    · exact fun n _ idle busy => absurd idle busy
    · intro n finished addr fresh head busy
      obtain ⟨data, uses, lookups⟩ := fresh busy
      refine ⟨data, uses, ?_⟩
      intro l member
      rcases List.mem_append.mp member with member | member
      · exact lookups l member
      · cases List.mem_singleton.mp member
        rfl
    · exact fun it now m _ busy => absurd (drain_idle it m now) busy
  · refine answers_kept single inv.answers moved (fun _ _ _ _ _ _ _ => Answer.Sound.next) ?_ ?_
    · intro i host_port cb now it n _ found cached node idle
      refine (inv.told n (known node)).sound ?_ cb it now
      split
      · exact Or.inr rfl
      · exact Or.inl rfl
    · intro it now m drains more cb
      cases drains with
      | skipped found node recent => exact (inv.told _ (known node)).sound (Or.inr rfl) cb it now
      | recorded found node =>
          have awaits := history.awaits_of_recording found node
          exact ((inv.told _ (known node)).record awaits).sound (Or.inr rfl) cb it now

theorem init_explained {s : State κ A} (init : Init s) : Explained s := by
  obtain ⟨clock, rfl⟩ := init
  exact ⟨by simp, by simp, by simp, by simp, by simp⟩

variable [DecidableEq κ] {allowed : State κ A → Action κ A → Prop}

theorem ReachableIf.history {s : State κ A} (reach : ReachableIf opt allowed s) : History s := by
  refine Runs.Reachable.strengthen (fun _ => ReachableIf.singleTask) (fun _ => init_history)
    ?_ reach
  rintro s t single history ⟨a, _, stepped⟩
  exact history_kept single history (step_cases stepped)

theorem ReachableIf.explained {s : State κ A} (reach : ReachableIf opt allowed s) :
    Explained s := by
  have known : ∀ s, ReachableIf opt allowed s → SingleTask s ∧ History s :=
    fun s reach => ⟨reach.singleTask, reach.history⟩
  refine Runs.Reachable.strengthen known (fun _ => init_explained) ?_ reach
  rintro s t ⟨single, history⟩ inv ⟨a, _, stepped⟩
  exact explained_kept single history inv (step_cases stepped)

end Hcproxy.Dns
