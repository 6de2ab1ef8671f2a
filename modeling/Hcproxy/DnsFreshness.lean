import Hcproxy.DnsAnswers
import Mathlib.Data.List.Induction

set_option autoImplicit false

namespace Hcproxy.Dns

open Ring (Cursor)
open Threads

variable {κ A : Type} {opt : Options}

/-- The last recorded success. -/
def latest (lookups : List (Lookup A)) : Option (Lookup A) :=
  (lookups.filter (·.success.isSome)).getLast?

theorem latest_append (lookups : List (Lookup A)) (l : Lookup A) :
    latest (lookups ++ [l]) = if l.success.isSome then some l else latest lookups := by
  unfold latest
  rw [List.filter_append]
  cases success : l.success.isSome <;> simp [success]

theorem current_latest (lookups : List (Lookup A)) :
    current lookups = (latest lookups).bind Lookup.success := by
  induction lookups using List.reverseRecOn with
  | nil => rfl
  | append_singleton earlier l ih =>
      rw [latest_append]
      cases success : l.success with
      | none =>
          rw [(unsuccessful_append earlier success).2.2, ih]
          rfl
      | some p =>
          rw [(successful_append earlier success).2.2]
          exact success.symm

/-- An address that a lookup returned. -/
def Lookup.Gave (l : Lookup A) (addr : Cursor A) : Prop :=
  ∃ p, l.result = some p ∧ addr.items = p.items

theorem pick_gave {lookups : List (Lookup A)} {k : ℕ} {q : Cursor A}
    (picked : pick lookups k = some q) :
    ∃ l, latest lookups = some l ∧ l.recorded.isSome = true ∧ l.Gave q := by
  obtain ⟨p, success, rfl⟩ := Option.map_eq_some_iff.mp picked
  rw [current_latest] at success
  obtain ⟨l, last, success⟩ := Option.bind_eq_some_iff.mp success
  unfold Lookup.success at success
  split at success
  · rename_i recorded
    exact ⟨l, last, recorded, p, success, by simp⟩
  · cases success

/-- An address that `Resolve` gives itself comes from the last recorded success, which is young
enough. -/
def Answer.Current (opt : Options) (a : Answer κ A) : Prop :=
  ∀ q ∈ a.addr, ∃ l r, latest a.seen = some l ∧ l.Gave q ∧ l.recorded = some r ∧
    a.now < r + opt.dns_cache_ttl.toInt

/-- An address that is given from a queue comes from the last lookup, which was recorded in the
critical section that took the queue. -/
def Answer.Own (a : Answer κ A) : Prop :=
  ∀ q ∈ a.addr, ∃ l, latest a.seen = some l ∧ a.seen.getLast? = some l ∧ l.Gave q ∧
    l.recorded = some a.now

/-- The entry knows when the last success was recorded. -/
def Node.Dated (n : Node κ A) : Prop :=
  ∀ l, latest n.lookups = some l → l.recorded = some n.data.successfully_resolved_at

@[simp] theorem use_iterate_resolved (data : CacheData κ A) (now k : ℕ) :
    ((CacheData.use · now)^[k] data).successfully_resolved_at = data.successfully_resolved_at := by
  induction k generalizing data with
  | zero => rfl
  | succ k ih => exact ih (data.use now)

theorem Node.Dated.drain {n : Node κ A} (dated : n.Dated) (it now : ℕ) :
    (drain opt it n now).2.Dated := by
  unfold Dns.drain
  split
  · exact dated
  · intro l last
    simp only [use_iterate_resolved]
    exact dated l last

theorem Node.Dated.record {n : Node κ A} (dated : n.Dated) {lookup bound now : ℕ}
    {addr : Option (Cursor A)} (awaits : n.Awaits lookup addr bound) :
    (n.record lookup addr now).Dated := by
  obtain ⟨earlier, finished, lookups, rfl, _, _⟩ := awaits
  intro l last
  simp only [Node.record, lookups, recordLookup_append, latest_append, Lookup.success] at last ⊢
  cases addr with
  | none =>
      refine dated l ?_
      rw [lookups, latest_append]
      simpa [Lookup.success] using last
  | some p =>
      simp only [Option.isSome_some, ↓reduceIte, Option.some.injEq] at last
      rw [← last]
      rfl

theorem dated_kept {s t : State κ A} {a : Action κ A} (single : SingleTask s)
    (history : History s) (dated : ∀ n ∈ s.nodes, n.Dated) (moved : Moved opt s a t) :
    ∀ n ∈ t.nodes, n.Dated := by
  refine nodes_kept single dated moved ?_ ?_ ?_ ?_ ?_ ?_
  · intro key cb l last
    cases last
  · exact fun n cb dated _ => dated
  · exact fun n now dated _ => dated
  · exact fun n dated _ => dated
  · intro n finished addr dated _ l last
    rw [latest_append] at last
    exact dated l (by simpa [Lookup.success] using last)
  · intro it now m drains
    cases drains with
    | skipped found node recent =>
        exact (dated _ (List.mem_of_getElem? (State.node_eq_some.mp node).1)).drain it now
    | recorded found node =>
        have member := List.mem_of_getElem? (State.node_eq_some.mp node).1
        exact ((dated _ member).record (history.awaits_of_recording found node)).drain it now

/-- A queue that is drained is the first one: the lookup that comes with it, if any, is the only
one of the entry. -/
theorem Drains.own {s : State κ A} {a : Action κ A} {it now : ℕ} {m : Node κ A}
    (drains : Drains opt s a it now m) (history : History s) (inv : Explained s)
    (queued : m.data.callbacks ≠ []) (cb : κ) :
    Answer.Own (⟨cb, m.data.addr, it, m.uses, now, m.lookups⟩ : Answer κ A) := by
  cases drains with
  | skipped found node recent =>
      have member := List.mem_of_getElem? (State.node_eq_some.mp node).1
      obtain ⟨data, _, _⟩ := inv.fresh _ member queued
      have none := congrArg CacheData.addr data
      change m.data.addr = Option.none at none
      intro q some
      rw [none] at some
      cases some
  | @recorded j it now lookup addr n found node =>
      have member := List.mem_of_getElem? (State.node_eq_some.mp node).1
      have awaits := history.awaits_of_recording found node
      have told := (inv.told _ member).record awaits
      obtain ⟨_, _, fresh⟩ := inv.fresh _ member (by simpa [Node.record] using queued)
      obtain ⟨earlier, finished, lookups, rfl, _, recorded⟩ := awaits
      have first : earlier = [] := by
        apply List.eq_nil_iff_forall_not_mem.mpr
        intro l before
        obtain ⟨r, known, _⟩ := recorded l before
        have unknown := fresh l (by simp [lookups, before])
        rw [known] at unknown
        cases unknown
      subst first
      intro q picked
      obtain ⟨l, last, _, gave⟩ := pick_gave (told.addr.symm.trans picked)
      have seen : (n.record ([] : List (Lookup A)).length addr now).lookups =
          [⟨finished, addr, some now, n.uses⟩] := by
        simp only [Node.record, lookups, recordLookup_append]
        rfl
      dsimp only at last ⊢
      rw [seen] at last ⊢
      have same : (⟨finished, addr, some now, n.uses⟩ : Lookup A) = l := by
        have append := latest_append [] (⟨finished, addr, some now, n.uses⟩ : Lookup A)
        rw [List.nil_append, last] at append
        split at append
        · exact (Option.some.inj append).symm
        · cases append
      subst same
      exact ⟨_, last, rfl, gave, rfl⟩

theorem Answer.Own.next {cb other : κ} {addr : Option (Cursor A)} {it index now : ℕ}
    {seen : List (Lookup A)} (own : Answer.Own (⟨cb, addr, it, index, now, seen⟩ : Answer κ A)) :
    Answer.Own (⟨other, advance addr, it, index + 1, now, seen⟩ : Answer κ A) := by
  intro q stepped
  obtain ⟨p, before, rfl⟩ := Option.map_eq_some_iff.mp stepped
  obtain ⟨l, last, final, ⟨head, result, items⟩, recorded⟩ := own p before
  exact ⟨l, last, final, ⟨head, result, items⟩, recorded⟩

/-- Where the addresses come from that are about to be given. -/
structure NoStale (opt : Options) (s : State κ A) : Prop where
  dated : ∀ n ∈ s.nodes, n.Dated
  due : ∀ a, .calling a ∈ s.calls → a.Current opt
  next : ∀ it callbacks addr index now seen,
    .calling it callbacks addr index now seen ∈ s.workers → ∀ cb,
      Answer.Own (⟨cb, addr, it, index, now, seen⟩ : Answer κ A)
  given : ∀ a ∈ s.answers, a.Current opt ∨ a.Own

theorem noStale_kept {s t : State κ A} {a : Action κ A} (single : SingleTask s)
    (history : History s) (inv : Explained s) (fresh : NoStale opt s) (moved : Moved opt s a t) :
    NoStale opt t := by
  refine ⟨dated_kept single history fresh.dated moved, ?_, ?_, ?_⟩
  · refine due_kept single fresh.due moved ?_
    intro i host_port cb now it n _ found cached node idle q picked
    have member := List.mem_of_getElem? (State.node_eq_some.mp node).1
    dsimp only at picked ⊢
    split at picked
    · rename_i young
      obtain ⟨l, last, _, gave⟩ := pick_gave ((inv.told _ member).addr.symm.trans picked)
      have late := Clock.add_le n.data.successfully_resolved_at opt.dns_cache_ttl
      exact ⟨l, _, last, gave, fresh.dated _ member l last, Int.lt_of_lt_of_le young late⟩
    · cases picked
  · exact next_kept single fresh.next moved (fun _ _ _ _ _ _ _ => Answer.Own.next)
      fun it now m drains => drains.own history inv
  · exact given_kept fresh.given (fun b due => Or.inl (fresh.due b due))
      (fun _ _ _ _ _ _ member cb _ => Or.inr (fresh.next _ _ _ _ _ _ member cb)) moved

theorem init_noStale {s : State κ A} (init : Init s) : NoStale opt s := by
  obtain ⟨clock, rfl⟩ := init
  exact ⟨by simp, by simp, by simp, by simp⟩

/-- Each callback belongs to one call of `Resolve`, which is for the name that `host` says. -/
def Named (host : κ → HostPort) (_ : State κ A) : Action κ A → Prop
  | .call host_port cb => host cb = host_port
  | _ => True

/-- The name that an entry is or was for. -/
def State.key (s : State κ A) (it : ℕ) : Option HostPort := s.nodes[it]?.map Node.key

/-- Callbacks wait and are called at entries for the names that they were passed with. -/
structure Keyed (host : κ → HostPort) (s : State κ A) : Prop where
  calls : ∀ host_port cb now, .locking host_port cb now ∈ s.calls → host cb = host_port
  queued : ∀ n ∈ s.nodes, ∀ cb ∈ n.data.callbacks, host cb = n.key
  due : ∀ a, .calling a ∈ s.calls → s.key a.node = some (host a.cb)
  next : ∀ it callbacks addr index now seen,
    .calling it callbacks addr index now seen ∈ s.workers → ∀ cb ∈ callbacks,
      s.key it = some (host cb)
  given : ∀ a ∈ s.answers, s.key a.node = some (host a.cb)

theorem State.key_of_node {s : State κ A} {it : ℕ} {n : Node κ A} (node : s.node it = some n) :
    s.key it = some n.key := by
  rw [State.key, (State.node_eq_some.mp node).1]
  rfl

theorem key_set {s t : State κ A} {it i : ℕ} {n m : Node κ A} {host_port : HostPort}
    (before : s.key i = some host_port) (node : s.node it = some n)
    (nodes : t.nodes = s.nodes.set it m) (key : m.key = n.key) : t.key i = some host_port := by
  obtain ⟨found, _⟩ := State.node_eq_some.mp node
  obtain ⟨inside, _⟩ := List.getElem?_eq_some_iff.mp found
  rw [← before, State.key, State.key, nodes]
  by_cases same : it = i
  · subst same
    rw [List.getElem?_set_self inside, found]
    exact congrArg some key
  · rw [List.getElem?_set_ne same]

/-- The keys of a map do not change. -/
theorem key_kept {s t : State κ A} {a : Action κ A} (moved : Moved opt s a t) {i : ℕ}
    {host_port : HostPort} (key : s.key i = some host_port) : t.key i = some host_port := by
  cases moved with
  | tick | call | schedules | calls | starts | looksUp | reads | callsBack | relocks
  | reschedules | dangles => exact key
  | creates found absent =>
      obtain ⟨n, found, same⟩ := Option.map_eq_some_iff.mp key
      have inside := (List.getElem?_eq_some_iff.mp found).1
      rw [State.key, List.getElem?_append_left inside, found]
      exact congrArg some same
  | queues found cached node busy => exact key_set key node rfl rfl
  | answers found cached node idle => exact key_set key node rfl rfl
  | erases found node empty unused => exact key_set key node rfl rfl
  | skips found node recent => exact key_set key node rfl (drain_key _ _ _)
  | returns found node result => exact key_set key node rfl rfl
  | records found node => exact key_set key node rfl (drain_key _ _ _)

section Keyed

variable {host : κ → HostPort}

theorem Keyed.of_node {s : State κ A} (keyed : Keyed host s) {it : ℕ} {n : Node κ A}
    (node : s.node it = some n) : ∀ cb ∈ n.data.callbacks, s.key it = some (host cb) := by
  intro cb member
  rw [State.key_of_node node]
  exact congrArg some
    (keyed.queued n (List.mem_of_getElem? (State.node_eq_some.mp node).1) cb member).symm

theorem queued_kept {s t : State κ A} {a : Action κ A} (single : SingleTask s)
    (keyed : Keyed host s) (moved : Moved opt s a t) :
    ∀ n ∈ t.nodes, ∀ cb ∈ n.data.callbacks, host cb = n.key := by
  have queued := keyed.queued
  have old : ∀ {it : ℕ} {n : Node κ A}, s.node it = some n →
      ∀ cb ∈ n.data.callbacks, host cb = n.key := by
    intro it n node
    exact queued n (List.mem_of_getElem? (State.node_eq_some.mp node).1)
  have written : ∀ {it : ℕ} {m : Node κ A}, (∀ cb ∈ m.data.callbacks, host cb = m.key) →
      ∀ n ∈ s.nodes.set it m, ∀ cb ∈ n.data.callbacks, host cb = n.key := by
    intro it m holds n member
    rcases mem_set member with rfl | member
    · exact holds
    · exact queued n member
  have drained : ∀ {it now : ℕ} {m : Node κ A}, ∀ cb ∈ (drain opt it m now).2.data.callbacks,
      host cb = (drain opt it m now).2.key := by
    intro it now m cb member
    rw [drain_idle] at member
    cases member
  cases moved with
  | tick | call | schedules | calls | starts | looksUp | reads | callsBack | relocks
  | reschedules => exact queued
  | creates found absent =>
      intro n member
      rcases List.mem_append.mp member with member | member
      · exact queued n member
      · cases List.mem_singleton.mp member
        intro cb member
        cases List.mem_singleton.mp member
        exact keyed.calls _ _ _ (List.mem_of_getElem? found)
  | queues found cached node busy =>
      refine written ?_
      intro cb member
      rcases List.mem_append.mp member with member | member
      · exact old node cb member
      · cases List.mem_singleton.mp member
        obtain ⟨m, node', key⟩ := State.find_some cached
        cases node.symm.trans node'
        rw [keyed.calls _ _ _ (List.mem_of_getElem? found)]
        exact key.symm
  | answers found cached node idle => exact written fun cb member => old node cb member
  | erases found node empty unused => exact written fun cb member => old node cb member
  | skips found node recent => exact written drained
  | returns found node result => exact written fun cb member => old node cb member
  | records found node => exact written drained
  | dangles found uses erased => exact absurd erased (single.node_ne_none found uses)

theorem running_kept {s t : State κ A} {a : Action κ A} (single : SingleTask s)
    (keyed : Keyed host s) (moved : Moved opt s a t) :
    ∀ it callbacks addr index now seen,
      .calling it callbacks addr index now seen ∈ t.workers → ∀ cb ∈ callbacks,
        s.key it = some (host cb) := by
  have running := keyed.next
  have passes : ∀ {j : ℕ} {y : Worker κ A}, (∀ it callbacks addr index now seen,
      y = .calling it callbacks addr index now seen → ∀ cb ∈ callbacks,
        s.key it = some (host cb)) →
      ∀ it callbacks addr index now seen,
        .calling it callbacks addr index now seen ∈ s.workers.set j y → ∀ cb ∈ callbacks,
          s.key it = some (host cb) := by
    intro j y ok it callbacks addr index now seen member
    rcases mem_set member with same | member
    · exact ok _ _ _ _ _ _ same.symm
    · exact running _ _ _ _ _ _ member
  have drained : ∀ {it now : ℕ} {m : Node κ A},
      (∀ cb ∈ m.data.callbacks, s.key it = some (host cb)) →
      ∀ i callbacks addr index t seen,
        (drain opt it m now).1 = .calling i callbacks addr index t seen → ∀ cb ∈ callbacks,
          s.key i = some (host cb) := by
    intro it now m named i callbacks addr index t seen same
    unfold Dns.drain at same
    split at same
    · cases same
    · cases same
      exact named
  cases moved with
  | tick | call | creates | queues | answers | schedules | calls => exact running
  | starts found due =>
      intro i callbacks addr index now seen member
      rcases List.mem_append.mp member with member | member
      · exact running i callbacks addr index now seen member
      · cases List.mem_singleton.mp member
  | erases | looksUp | returns | reads | relocks | reschedules => exact passes (by simp)
  | skips found node recent => exact passes (drained (keyed.of_node node))
  | records found node =>
      refine passes (drained ?_)
      simpa [Node.record] using keyed.of_node node
  | callsBack found =>
      refine passes ?_
      intro i callbacks p k t known same cb member
      cases same
      exact running _ _ _ _ _ _ (List.mem_of_getElem? found) cb (List.mem_cons_of_mem _ member)
  | dangles found uses erased => exact absurd erased (single.node_ne_none found uses)

theorem keyed_kept {s t : State κ A} {a : Action κ A} (single : SingleTask s)
    (keyed : Keyed host s) (named : Named host s a) (moved : Moved opt s a t) : Keyed host t := by
  refine ⟨?_, queued_kept single keyed moved, ?_, ?_, ?_⟩
  · intro host_port cb now member
    have others : ∀ {i : ℕ} {y : Call κ A}, .locking host_port cb now ∈ s.calls.set i y →
        y ≠ .locking host_port cb now → host cb = host_port := by
      intro i y member different
      rcases mem_set member with same | member
      · exact absurd same.symm different
      · exact keyed.calls _ _ _ member
    cases moved with
    | call fresh =>
        rcases List.mem_append.mp member with member | member
        · exact keyed.calls _ _ _ member
        · cases List.mem_singleton.mp member
          exact named
    | creates | queues | answers | schedules | calls => exact others member (by simp)
    | tick | starts | erases | looksUp | skips | returns | reads | records | callsBack | relocks
    | reschedules | dangles => exact keyed.calls _ _ _ member
  · refine due_kept (P := fun b => t.key b.node = some (host b.cb)) single
      (fun b due => key_kept moved (keyed.due b due)) moved ?_
    intro i host_port cb now it n _ found cached node _
    obtain ⟨m, node', key⟩ := State.find_some cached
    refine key_kept moved ?_
    rw [State.key_of_node node', key, keyed.calls _ _ _ (List.mem_of_getElem? found)]
  · exact fun _ _ _ _ _ _ member cb queued =>
      key_kept moved (running_kept single keyed moved _ _ _ _ _ _ member cb queued)
  · exact given_kept (P := fun b => t.key b.node = some (host b.cb))
      (fun b given => key_kept moved (keyed.given b given))
      (fun b due => key_kept moved (keyed.due b due))
      (fun _ _ _ _ _ _ member cb queued =>
        key_kept moved (keyed.next _ _ _ _ _ _ member cb queued)) moved

end Keyed

/-- The critical section that takes a queue gives its callbacks the result of the lookup that the
same execution has made. -/
theorem taken_own {s t : State κ A} {a : Action κ A} (history : History s)
    (inv : Explained s) (moved : Moved opt s a t) {j it index now : ℕ} {callbacks : List κ}
    {q : Cursor A} {seen : List (Lookup A)}
    (running : t.workers[j]? = some (.calling it callbacks (some q) index now seen))
    (takes : ∀ callbacks addr index,
      s.workers[j]? ≠ some (.calling it callbacks addr index now seen)) :
    ∃ lookup p, a = .lockRecord j ∧ s.workers[j]? = some (.recording it lookup (some p) now) ∧
      q.items = p.items := by
  have moves : ∀ {i : ℕ} {y : Worker κ A},
      (s.workers.set i y)[j]? = some (.calling it callbacks (some q) index now seen) →
      i = j ∧ y = .calling it callbacks (some q) index now seen := by
    intro i y found
    rw [List.getElem?_set] at found
    split at found
    · rename_i same
      split at found
      · exact ⟨same, Option.some.inj found⟩
      · cases found
    · exact absurd found (takes _ _ _)
  have drained : ∀ {i k t : ℕ} {m : Node κ A}, (s.workers.set i (drain opt k m t).1)[j]? =
      some (.calling it callbacks (some q) index now seen) →
      i = j ∧ k = it ∧ t = now ∧ m.data.callbacks ≠ [] ∧ m.data.addr = some q := by
    intro i k t m found
    obtain ⟨same, calling⟩ := moves found
    unfold drain at calling
    split at calling
    · cases calling
    · rename_i more
      simp only [Worker.calling.injEq] at calling
      exact ⟨same, calling.1, calling.2.2.2.2.1, more, calling.2.2.1⟩
  cases moved with
  | tick | call | creates | queues | answers | schedules | calls =>
      exact absurd running (takes _ _ _)
  | starts found due =>
      rcases of_getElem?_snoc running with ⟨_, before⟩ | ⟨_, new⟩
      · exact absurd before (takes _ _ _)
      · cases new
  | erases | looksUp | returns | reads | relocks | reschedules | dangles =>
      exact absurd (moves running).2 (by simp)
  | @callsBack i k index' now' cb rest addr seen' found =>
      obtain ⟨same, calling⟩ := moves running
      subst same
      simp only [Worker.calling.injEq] at calling
      obtain ⟨rfl, _, _, _, rfl, rfl⟩ := calling
      exact absurd found (takes _ _ _)
  | skips found node recent =>
      obtain ⟨_, _, _, queued, addr⟩ := drained running
      have member := List.mem_of_getElem? (State.node_eq_some.mp node).1
      obtain ⟨data, _, _⟩ := inv.fresh _ member queued
      have none := congrArg CacheData.addr data
      exact absurd (addr.symm.trans none) (by simp)
  | @records i k lookup now' addr n found node =>
      obtain ⟨rfl, rfl, rfl, queued, picked⟩ := drained running
      obtain ⟨cb, _⟩ := List.exists_mem_of_ne_nil _ queued
      obtain ⟨l, last, final, ⟨p, result, items⟩, _⟩ :=
        (Drains.recorded found node : Drains opt s _ _ _ _).own history inv queued cb q picked
      obtain ⟨earlier, finished, lookups, rfl, _, _⟩ := history.awaits_of_recording found node
      have seen : (n.record earlier.length addr now').lookups.getLast? = some l := final
      simp only [Node.record, lookups, recordLookup_append, List.getLast?_concat,
        Option.some.injEq] at seen
      subst seen
      dsimp only at result
      subst result
      exact ⟨_, p, rfl, found, items⟩

theorem issued_kept {s t : State κ A} {a : Action κ A} (moved : Moved opt s a t) :
    ∀ cb ∈ s.issued, cb ∈ t.issued := by
  cases moved with
  | call fresh => exact fun cb issued => List.mem_append_left _ issued
  | _ => exact fun cb issued => issued

variable [DecidableEq κ]

/-- Each callback may be named after the call of `Resolve` that it was passed to. -/
theorem exists_named {allowed : State κ A → Action κ A → Prop} {s : State κ A}
    (reach : ReachableIf opt allowed s) :
    ∃ host, ReachableIf opt (fun s a => allowed s a ∧ Named host s a) s := by
  have all : ∃ host : κ → HostPort, ∀ other : κ → HostPort,
      (∀ cb ∈ s.issued, other cb = host cb) →
        ReachableIf opt (fun s a => allowed s a ∧ Named other s a) s := by
    induction reach with
    | start initial => exact ⟨fun _ => [], fun _ _ => .start initial⟩
    | @move s t before moved ih =>
        obtain ⟨host, named⟩ := ih
        obtain ⟨a, admitted, stepped⟩ := moved
        cases a with
        | call host_port cb =>
            simp only [step] at stepped
            split at stepped
            · cases stepped
            · rename_i fresh
              refine ⟨Function.update host cb host_port, fun other agrees => ?_⟩
              have stepped' : step opt s (.call host_port cb) = some t := by
                simp [step, fresh, ← Option.some.inj stepped]
              cases stepped
              refine .move (named other fun b issued => ?_) ⟨_, ⟨admitted, ?_⟩, stepped'⟩
              · have old := agrees b (List.mem_append_left _ issued)
                rwa [Function.update_of_ne] at old
                exact fun same => fresh (same ▸ issued)
              · have new := agrees cb (by simp)
                rwa [Function.update_self] at new
        | _ =>
            refine ⟨host, fun other agrees => .move (named other fun b issued =>
              agrees b (issued_kept (step_cases stepped) b issued)) ⟨_, ⟨admitted, ?_⟩, stepped⟩⟩
            trivial
  obtain ⟨host, named⟩ := all
  exact ⟨host, named host fun _ _ => rfl⟩

theorem keyed_of_reachable {host : κ → HostPort} {s : State κ A}
    (reach : ReachableIf opt (Named host) s) : Keyed host s := by
  refine Runs.Reachable.strengthen (fun _ => ReachableIf.singleTask) ?_ ?_ reach
  · rintro s ⟨clock, rfl⟩
    exact ⟨by simp, by simp, by simp, by simp, by simp⟩
  · rintro s t single keyed ⟨a, named, stepped⟩
    exact keyed_kept single keyed named (step_cases stepped)

theorem noStale_of_reachable {s : State κ A} (reach : Reachable opt s) : NoStale opt s := by
  have known : ∀ s : State κ A, Reachable opt s → SingleTask s ∧ History s ∧ Explained s :=
    fun s reach => ⟨ReachableIf.singleTask reach, ReachableIf.history reach,
      ReachableIf.explained reach⟩
  refine Runs.Reachable.strengthen known (fun _ => init_noStale) ?_ reach
  rintro s t ⟨single, history, inv⟩ fresh ⟨a, _, stepped⟩
  exact noStale_kept single history inv fresh (step_cases stepped)

/-- No stale address: whatever address is given is for the name that was asked for, and is from
the last success that was recorded when it was picked. `Resolve` itself gives it only while it is
young enough, and from a queue it is given by the execution that has looked it up. -/
theorem no_stale_address {s : State κ A} (reach : Reachable opt s) :
    NoStale opt s ∧
    ((∃ host, ReachableIf opt (Named host) s) ∧
      ∀ host, ReachableIf opt (Named host) s → Keyed host s) ∧
    ∀ a t, step opt s a = some t → ∀ j it callbacks q index now seen,
      t.workers[j]? = some (.calling it callbacks (some q) index now seen) →
      (∀ callbacks addr index,
        s.workers[j]? ≠ some (.calling it callbacks addr index now seen)) →
      ∃ lookup p, a = .lockRecord j ∧ s.workers[j]? = some (.recording it lookup (some p) now) ∧
        q.items = p.items := by
  refine ⟨noStale_of_reachable reach, ⟨?_, fun _ => keyed_of_reachable⟩, ?_⟩
  · obtain ⟨host, named⟩ := exists_named reach
    exact ⟨host, named.mono fun _ _ ⟨a, admitted, stepped⟩ => ⟨a, admitted.2, stepped⟩⟩
  · intro a t stepped j it callbacks q index now seen running takes
    exact taken_own (ReachableIf.history reach) (ReachableIf.explained reach) (step_cases stepped)
      running takes

/-- A name that has been looked up for the first time is asked for again. -/
def askedAgain : State ℕ ℕ where
  clock := 5
  nodes := [{
    key := [97]
    data := { addr := some ⟨[30, 40], 0, by decide⟩, used_at := 5, resolved_at := 5
              successfully_resolved_at := 5, use_count := 2 }
    lookups := [⟨5, some ⟨[30, 40], 0, by decide⟩, some 5, 0⟩]
    uses := 2 }]
  calls := [.done, .calling ⟨1, some ⟨[30, 40], 1, by decide⟩, 0, 1, 5,
    [⟨5, some ⟨[30, 40], 0, by decide⟩, some 5, 0⟩]⟩]
  workers := [.calling 0 [0] (some ⟨[30, 40], 0, by decide⟩) 0 5
    [⟨5, some ⟨[30, 40], 0, by decide⟩, some 5, 0⟩]]
  issued := [0, 1]

theorem askedAgain_reachable : ReachableIf ⟨4, 3, 9⟩ (Named fun _ => [97]) askedAgain := by
  refine Runs.replay_reachable_of
    [.call [97] 0, .lockCall 0, .scheduleCall 0, .start 0, .lockWorker 0,
      .returnResolve 0 (some ⟨[30, 40], by decide⟩), .readClock 0, .lockRecord 0,
      .call [97] 1, .lockCall 1] ?_ (.start ⟨5, rfl⟩) rfl
  intro a member s
  simp only [List.mem_cons, List.not_mem_nil, or_false] at member
  rcases member with rfl | rfl | rfl | rfl | rfl | rfl | rfl | rfl | rfl | rfl <;> trivial

theorem no_stale_address_askedAgain :
    NoStale ⟨4, 3, 9⟩ askedAgain ∧ Keyed (fun _ => [97]) askedAgain := by
  have reach : Reachable ⟨4, 3, 9⟩ askedAgain :=
    askedAgain_reachable.mono fun _ _ ⟨a, _, stepped⟩ => ⟨a, trivial, stepped⟩
  obtain ⟨fresh, ⟨_, keyed⟩, _⟩ := no_stale_address reach
  exact ⟨fresh, keyed _ askedAgain_reachable⟩

end Hcproxy.Dns
