import Hcproxy.DnsFreshness
import Hcproxy.DnsSingleFlight

set_option autoImplicit false

namespace Hcproxy.Dns

open Ring (Cursor)
open Threads

variable {κ A : Type} {opt : Options}

/-- A null answer may be given now: a lookup of the entry has returned, and no success that is
still to be used. -/
def State.Justifies (opt : Options) (s : State κ A) (a : Answer κ A) : Prop :=
  ∃ n, s.nodes[a.node]? = some n ∧ n.lookups ≠ [] ∧
    ∀ l ∈ n.lookups, l.result.isSome → l.finished + opt.dns_cache_ttl.toInt ≤ s.clock

/-- The number of lookups that had been recorded when the answer was picked. -/
def Answer.recorded (a : Answer κ A) : ℕ := (a.seen.filter (·.recorded.isSome)).length

/-- The steps that neither pick nor give an unjustified null answer. The first execution for an
entry has to read a clock that has reached the refresh period, since it compares it with a
`resolved_at` of zero. `Resolve` has to compare with a sum that does not overflow. And when it
gives a null answer, no success may be fresh by then that had not been recorded when it took the
lock. -/
def Timely (opt : Options) (s : State κ A) : Action κ A → Prop
  | .lockWorker j => ∀ it now n, s.workers[j]? = some (.locking it now) → s.node it = some n →
    n.data.callbacks ≠ [] → opt.dns_cache_refresh_period.toInt ≤ now
  | .lockCall i => ∀ host_port cb now it n,
    s.calls[i]? = some (.locking host_port cb now) → s.find host_port = some it →
    s.node it = some n → n.data.callbacks = [] → n.data.addr ≠ none →
    Clock.Fits n.data.successfully_resolved_at opt.dns_cache_ttl
  | .answerCall i => ∀ a n, s.calls[i]? = some (.calling a) → a.addr = none →
    s.nodes[a.node]? = some n → ∀ l ∈ n.lookups.drop a.recorded, l.result.isSome →
    l.finished + opt.dns_cache_ttl.toInt ≤ s.clock
  | _ => True

/-- When a lookup returned and with what, which does not change any more. -/
def Lookup.outcome (l : Lookup A) : ℕ × Option (Cursor A) := (l.finished, l.result)

def Node.outcomes (n : Node κ A) : List (ℕ × Option (Cursor A)) := n.lookups.map Lookup.outcome

section Outcomes

variable {s t : State κ A} {a : Action κ A}

@[simp] theorem outcome_recordLookup (lookups : List (Lookup A)) (lookup now uses : ℕ) :
    (recordLookup lookups lookup now uses).map Lookup.outcome = lookups.map Lookup.outcome := by
  unfold recordLookup
  induction lookups generalizing lookup with
  | nil => simp
  | cons l rest ih =>
      cases lookup with
      | zero => rfl
      | succ lookup => simpa using ih lookup

theorem outcomes_eq_nil {n : Node κ A} : n.outcomes = [] ↔ n.lookups = [] := List.map_eq_nil_iff

theorem outcomes_set {it : ℕ} {n m : Node κ A} (node : s.node it = some n)
    (same : m.outcomes = n.outcomes) {i : ℕ} {k : Node κ A} (found : s.nodes[i]? = some k) :
    ∃ l, (s.nodes.set it m)[i]? = some l ∧ l.outcomes = k.outcomes := by
  obtain ⟨there, _⟩ := State.node_eq_some.mp node
  by_cases here : it = i
  · subst here
    cases Option.some.inj (there.symm.trans found)
    exact ⟨m, getElem?_written node, same⟩
  · exact ⟨k, by rw [List.getElem?_set_ne here]; exact found, rfl⟩

/-- Only the return of `ResolveSync` adds to what is known of the lookups of an entry. -/
theorem outcomes_of_moved (single : SingleTask s) (moved : Moved opt s a t) {i : ℕ} {n : Node κ A}
    (found : s.nodes[i]? = some n) : ∃ m : Node κ A, t.nodes[i]? = some m ∧
      (m.outcomes = n.outcomes ∨
        ∃ (j : ℕ) (o : ℕ × Option (Cursor A)), s.workers[j]? = some (.resolving i) ∧
          m.outcomes = n.outcomes ++ [o]) := by
  have written : ∀ {it : ℕ} {k m : Node κ A}, s.node it = some k → m.outcomes = k.outcomes →
      ∃ m' : Node κ A, (s.nodes.set it m)[i]? = some m' ∧ (m'.outcomes = n.outcomes ∨
        ∃ (j : ℕ) (o : ℕ × Option (Cursor A)), s.workers[j]? = some (.resolving i) ∧
          m'.outcomes = n.outcomes ++ [o]) := by
    intro it k m node same
    obtain ⟨m', after, known⟩ := outcomes_set node same found
    exact ⟨m', after, Or.inl known⟩
  cases moved with
  | creates absent =>
      obtain ⟨inside, _⟩ := List.getElem?_eq_some_iff.mp found
      exact ⟨n, by rw [List.getElem?_append_left inside]; exact found, Or.inl rfl⟩
  | queues _ _ node | answers _ _ node | erases _ node => exact written node rfl
  | skips _ node => exact written node (congrArg (List.map _) (drain_lookups _ _ _))
  | records _ node =>
      refine written node ?_
      rw [Node.outcomes, drain_lookups, Node.record, outcome_recordLookup, Node.outcomes]
  | @returns j it k worker node result =>
      obtain ⟨there, _⟩ := State.node_eq_some.mp node
      by_cases here : it = i
      · subst here
        cases Option.some.inj (there.symm.trans found)
        exact ⟨_, getElem?_written node, Or.inr ⟨j, _, worker, List.map_append⟩⟩
      · exact ⟨n, by rw [List.getElem?_set_ne here]; exact found, Or.inl rfl⟩
  | tick | call | schedules | calls | starts | looksUp | reads | callsBack | relocks
  | reschedules => exact ⟨n, found, Or.inl rfl⟩
  | dangles worker uses erased => exact absurd erased (single.node_ne_none worker uses)

/-- The lookups that have been recorded come first. -/
theorem History.recorded_first (history : History s) {it : ℕ} {n : Node κ A}
    (found : s.nodes[it]? = some n) : ∃ known rest, n.lookups = known ++ rest ∧
      (∀ l ∈ known, l.recorded ≠ none) ∧ ∀ l ∈ rest, l.recorded = none := by
  rcases history.settled it n found with settled | ⟨w, member, awaits⟩
  · exact ⟨n.lookups, [], by simp, settled, by simp⟩
  · have known : ∀ {lookup bound : ℕ} {addr : Option (Cursor A)}, n.Awaits lookup addr bound →
        ∃ known rest, n.lookups = known ++ rest ∧
          (∀ l ∈ known, l.recorded ≠ none) ∧ ∀ l ∈ rest, l.recorded = none := by
      rintro lookup bound addr ⟨earlier, finished, lookups, _, _, recorded⟩
      refine ⟨earlier, [⟨finished, addr, none, 0⟩], lookups, ?_, by simp⟩
      intro l member
      obtain ⟨r, same, _⟩ := recorded l member
      simp [same]
    have holds := history.awaits w member
    cases w with
    | resolved =>
        cases awaits
        obtain ⟨m, there, awaits⟩ := holds
        cases Option.some.inj (found.symm.trans there)
        exact known awaits
    | recording =>
        cases awaits
        obtain ⟨_, m, there, awaits⟩ := holds
        cases Option.some.inj (found.symm.trans there)
        exact known awaits
    | _ => cases awaits

end Outcomes

/-- A success of a lookup with this outcome is not to be used any more. -/
def Stale (opt : Options) (clock : ℕ) (outcome : ℕ × Option (Cursor A)) : Prop :=
  outcome.2.isSome → outcome.1 + opt.dns_cache_ttl.toInt ≤ clock

/-- A null answer that `Resolve` has picked: what had been recorded by then does not count. -/
def Answer.Excused (opt : Options) (s : State κ A) (a : Answer κ A) : Prop :=
  ∃ n, s.nodes[a.node]? = some n ∧ n.lookups ≠ [] ∧
    ∃ known, known <+: n.outcomes ∧ known.length = a.recorded ∧ ∀ o ∈ known, Stale opt s.clock o

/-- No lookup of the entry has found anything. -/
def State.Failed (s : State κ A) (it : ℕ) : Prop :=
  ∃ n, s.nodes[it]? = some n ∧ n.outcomes ≠ [] ∧ ∀ o ∈ n.outcomes, o.2 = none

/-- What timely steps keep. -/
structure Punctual (opt : Options) (s : State κ A) : Prop where
  started : ∀ n ∈ s.nodes, n.data.callbacks = [] → n.lookups ≠ []
  arriving : ∀ host_port cb now, .locking host_port cb now ∈ s.calls → now ≤ s.clock
  due : ∀ a, .calling a ∈ s.calls → a.addr = none → a.Excused opt s
  next : ∀ it callbacks addr index now seen,
    .calling it callbacks addr index now seen ∈ s.workers → κ → addr = none → s.Failed it

section Step

variable {s t : State κ A} {a : Action κ A}

theorem Answer.Excused.later {b : Answer κ A} (excused : b.Excused opt s) (single : SingleTask s)
    (moved : Moved opt s a t) : b.Excused opt t := by
  have clock := clock_of_moved moved
  obtain ⟨n, found, more, known, front, length, stale⟩ := excused
  obtain ⟨m, after, grown⟩ := outcomes_of_moved single moved found
  have longer : n.outcomes <+: m.outcomes := by
    rcases grown with same | ⟨_, o, _, longer⟩
    · exact same ▸ List.prefix_refl _
    · exact ⟨[o], longer.symm⟩
  refine ⟨m, after, ?_, known, front.trans longer, length, ?_⟩
  · intro empty
    have nothing : n.outcomes <+: [] := outcomes_eq_nil.mpr empty ▸ longer
    exact more (outcomes_eq_nil.mp (List.prefix_nil.mp nothing))
  · intro o member success
    have := stale o member success
    omega

/-- While a worker that holds the entry is doing something else, no lookup of it returns. -/
theorem State.Failed.later {it : ℕ} {w : Worker κ A} (failed : s.Failed it)
    (single : SingleTask s) (moved : Moved opt s a t) (member : w ∈ s.workers)
    (mine : w.task it = 1) (other : w ≠ .resolving it) : t.Failed it := by
  obtain ⟨n, found, more, nothing⟩ := failed
  obtain ⟨m, after, same | ⟨j, o, resolving, _⟩⟩ := outcomes_of_moved single moved found
  · exact ⟨m, after, same ▸ more, same ▸ nothing⟩
  · obtain ⟨i, here⟩ := List.mem_iff_getElem?.mp member
    have uses : Worker.task it (.resolving it : Worker κ A) = 1 := if_pos rfl
    obtain rfl := single.same_worker here resolving mine uses
    exact absurd (Option.some.inj (here.symm.trans resolving)) other

/-- The first lookup of an entry is due when the clock reads the refresh period. -/
theorem Node.Fresh.due {n : Node κ A} (fresh : n.Fresh) :
    Clock.add n.data.resolved_at opt.dns_cache_refresh_period =
      opt.dns_cache_refresh_period.toInt := by
  have zero : n.data.resolved_at = 0 := congrArg CacheData.resolved_at fresh.1
  rw [zero, Clock.add_of_fits (Clock.fits_zero _)]
  exact Int.zero_add _

/-- An entry with a queue has been processed by nobody, so only a young clock could keep its
first execution from looking the name up. -/
theorem Drains.recorded_of_timely {it now : ℕ} {m : Node κ A} (drains : Drains opt s a it now m)
    (timely : Timely opt s a) (inv : Explained s) (queued : m.data.callbacks ≠ []) :
    ∃ (j lookup : ℕ) (addr : Option (Cursor A)) (n : Node κ A), a = .lockRecord j ∧
      s.workers[j]? = some (.recording it lookup addr now) ∧ s.node it = some n ∧
      m = n.record lookup addr now := by
  cases drains with
  | skipped found node recent =>
      have member := List.mem_of_getElem? (State.node_eq_some.mp node).1
      have late := timely _ _ _ found node queued
      rw [(inv.fresh _ member queued).due] at recent
      exact absurd late (Int.not_le.mpr recent)
  | recorded found node => exact ⟨_, _, _, _, rfl, found, node, rfl⟩

/-- What `Resolve` picks if nothing that it knows of is to be used. -/
theorem excused_of_lockCall {i now it : ℕ} {host_port : HostPort} {cb : κ} {n : Node κ A}
    (history : History s) (inv : Explained s) (punctual : Punctual opt s)
    (timely : Timely opt s (.lockCall i))
    (found : s.calls[i]? = some (.locking host_port cb now))
    (cached : s.find host_port = some it) (node : s.node it = some n)
    (idle : n.data.callbacks = [])
    (null : (if now < Clock.add n.data.successfully_resolved_at opt.dns_cache_ttl
      then n.data.addr else none) = none) :
    Answer.Excused opt s ⟨cb, none, it, n.uses, now, n.lookups⟩ := by
  obtain ⟨there, _⟩ := State.node_eq_some.mp node
  have member := List.mem_of_getElem? there
  have told := inv.told n member
  have before := punctual.arriving _ _ _ (List.mem_of_getElem? found)
  obtain ⟨known, rest, split, recorded, unrecorded⟩ := history.recorded_first there
  refine ⟨n, there, punctual.started n member idle, known.map Lookup.outcome, ?_, ?_, ?_⟩
  · rw [Node.outcomes, split, List.map_append]
    exact List.prefix_append _ _
  · have all : known.filter (·.recorded.isSome) = known := by
      apply List.filter_eq_self.mpr
      exact fun l inside => Option.isSome_iff_ne_none.mpr (recorded l inside)
    have nothing : rest.filter (·.recorded.isSome) = [] := by
      apply List.filter_eq_nil_iff.mpr
      intro l inside
      simp [unrecorded l inside]
    simp only [Answer.recorded, split, List.filter_append, all, nothing, List.append_nil,
      List.length_map]
  · intro o outcome success
    obtain ⟨l, inside, rfl⟩ := List.mem_map.mp outcome
    have mine : l ∈ n.lookups := split ▸ List.mem_append_left _ inside
    obtain ⟨r, known⟩ := Option.ne_none_iff_exists'.mp (recorded l inside)
    by_cases empty : n.data.addr = none
    · have failed := current_eq_none (told.current_none empty) mine (recorded l inside)
      rw [Lookup.outcome, failed] at success
      cases success
    · have fits := timely _ _ _ _ _ found cached node idle empty
      have old : ¬ now < Clock.add n.data.successfully_resolved_at opt.dns_cache_ttl := by
        intro recent
        rw [if_pos recent] at null
        exact empty null
      rw [Clock.add_of_fits fits] at old
      have := told.finished l mine r known
      have := told.recent l mine r known success
      show l.finished + opt.dns_cache_ttl.toInt ≤ s.clock
      omega

/-- The execution that drains the queue has looked the name up, and that is the only lookup that
can have found anything. -/
theorem failed_of_drained {it now : ℕ} {m : Node κ A} (single : SingleTask s)
    (history : History s) (inv : Explained s) (timely : Timely opt s a)
    (moved : Moved opt s a t) (drains : Drains opt s a it now m) (queued : m.data.callbacks ≠ [])
    (null : m.data.addr = none) : t.Failed it := by
  obtain ⟨j, lookup, addr, n, rfl, found, node, rfl⟩ :=
    drains.recorded_of_timely timely inv queued
  have awaits := history.awaits_of_recording found node
  have member := List.mem_of_getElem? (State.node_eq_some.mp node).1
  have told := (inv.told n member).record awaits
  obtain ⟨earlier, finished, _, _, recorded, after⟩ := awaits.record now
  have written : t.nodes[it]? = some (drain opt it (n.record lookup addr now) now).2 := by
    cases moved with
    | records found' node' =>
        cases found.symm.trans found'
        cases node.symm.trans node'
        exact getElem?_written node
    | dangles found uses erased => exact absurd erased (single.node_ne_none found uses)
  refine ⟨_, written, ?_, ?_⟩
  · rw [Node.outcomes, drain_lookups, after]
    simp
  · intro o outcome
    rw [Node.outcomes, drain_lookups] at outcome
    obtain ⟨l, inside, rfl⟩ := List.mem_map.mp outcome
    refine current_eq_none (told.current_none null) inside ?_
    rcases List.mem_append.mp (after ▸ inside) with before | last
    · obtain ⟨r, same, _⟩ := recorded l before
      simp [same]
    · cases List.mem_singleton.mp last
      simp

theorem History.record_ne_nil (history : History s) {j it lookup now : ℕ}
    {addr : Option (Cursor A)} {n : Node κ A}
    (found : s.workers[j]? = some (.recording it lookup addr now)) (node : s.node it = some n) :
    (n.record lookup addr now).lookups ≠ [] := by
  obtain ⟨_, _, _, _, _, after⟩ := (history.awaits_of_recording found node).record now
  simp [after]

theorem started_kept (single : SingleTask s) (history : History s) (inv : Explained s)
    (punctual : Punctual opt s) (timely : Timely opt s a) (moved : Moved opt s a t) :
    ∀ n ∈ t.nodes, n.data.callbacks = [] → n.lookups ≠ [] := by
  refine nodes_kept single punctual.started moved (fun _ _ idle => by simp at idle)
    (fun n cb _ _ idle => by simp at idle) (fun n now started idle _ => started idle)
    (fun n started idle _ => started idle) (fun n finished addr _ _ _ => by simp) ?_
  intro it now m drains _
  rw [drain_lookups]
  by_cases queued : m.data.callbacks = []
  · cases drains with
    | skipped found node recent =>
        exact punctual.started _ (List.mem_of_getElem? (State.node_eq_some.mp node).1) queued
    | recorded found node => exact history.record_ne_nil found node
  · obtain ⟨_, _, _, _, _, found, node, rfl⟩ := drains.recorded_of_timely timely inv queued
    exact history.record_ne_nil found node

theorem punctual_kept (single : SingleTask s) (history : History s) (inv : Explained s)
    (punctual : Punctual opt s) (timely : Timely opt s a) (moved : Moved opt s a t) :
    Punctual opt t := by
  refine ⟨started_kept single history inv punctual timely moved,
    arriving_kept punctual.arriving moved, ?_, ?_⟩
  · refine due_kept (P := fun b => b.addr = none → b.Excused opt t) single ?_ moved ?_
    · exact fun b due null => (punctual.due b due null).later single moved
    · rintro i host_port cb now it n rfl found cached node idle null
      dsimp only at null ⊢
      rw [null]
      exact (excused_of_lockCall history inv punctual timely found cached node idle null).later
        single moved
  · refine next_kept (P := fun b : Answer κ A => b.addr = none → t.Failed b.node) single ?_ moved
      ?_ ?_
    · intro it callbacks addr index now seen member cb null
      exact (punctual.next _ _ _ _ _ _ member cb null).later single moved member (if_pos rfl) nofun
    · intro cb other addr it index now seen failed null
      refine failed ?_
      change advance addr = none at null
      simpa [advance] using null
    · intro it now m drains queued cb null
      exact failed_of_drained single history inv timely moved drains queued null

theorem init_punctual (init : Init s) : Punctual opt s := by
  obtain ⟨clock, rfl⟩ := init
  exact ⟨by simp, by simp, by simp, by simp⟩

/-- A step that is not timely gives a null answer that is not justified, or lets a worker take a
queue for which nothing has been looked up, or compares with a sum that has overflowed. -/
theorem unjustified_of_not_timely (late : ¬ Timely opt s a) (moved : Moved opt s a t)
    (single : SingleTask s) (history : History s) (inv : Explained s) :
    (∃ b, t.answers = s.answers ++ [b] ∧ b.addr = none ∧ ¬ s.Justifies opt b) ∨
    (∃ it callbacks index now, callbacks ≠ [] ∧
      .calling it callbacks none index now [] ∈ t.workers) ∨
    (∃ n ∈ s.nodes, ¬ Clock.Fits n.data.successfully_resolved_at opt.dns_cache_ttl) := by
  cases moved with
  | calls found =>
      refine Or.inl ?_
      simp only [Timely, not_forall] at late
      obtain ⟨b, n, here, null, there, l, member, success, fresh⟩ := late
      cases Option.some.inj (found.symm.trans here)
      refine ⟨_, rfl, null, ?_⟩
      rintro ⟨m, same, _, stale⟩
      cases Option.some.inj (there.symm.trans same)
      exact fresh (stale l (List.mem_of_mem_drop member) success)
  | creates | queues | answers =>
      simp only [Timely, not_forall] at late
      obtain ⟨_, _, _, it, n, _, _, node, _, _, large⟩ := late
      exact Or.inr (Or.inr ⟨n, List.mem_of_getElem? (State.node_eq_some.mp node).1, large⟩)
  | erases found node empty unused =>
      simp only [Timely, not_forall] at late
      obtain ⟨_, _, m, here, there, queued, _⟩ := late
      cases Option.some.inj (found.symm.trans here)
      cases Option.some.inj (node.symm.trans there)
      exact absurd empty queued
  | @looksUp j it now n found node stale =>
      simp only [Timely, not_forall] at late
      obtain ⟨_, _, m, here, there, queued, early⟩ := late
      cases Option.some.inj (found.symm.trans here)
      cases Option.some.inj (node.symm.trans there)
      have member := List.mem_of_getElem? (State.node_eq_some.mp node).1
      rw [(inv.fresh _ member queued).due] at stale
      exact absurd stale early
  | @skips j it now n found node recent =>
      simp only [Timely, not_forall] at late
      obtain ⟨_, _, m, here, there, queued, early⟩ := late
      cases Option.some.inj (found.symm.trans here)
      cases Option.some.inj (node.symm.trans there)
      have member := List.mem_of_getElem? (State.node_eq_some.mp node).1
      obtain ⟨data, _, unrecorded⟩ := inv.fresh _ member queued
      have settled := history.settled_of_worker single found (if_pos rfl) rfl
        (State.node_eq_some.mp node).1
      have nothing : n.lookups = [] := by
        apply List.eq_nil_iff_forall_not_mem.mpr
        exact fun l inside => settled l inside (unrecorded l inside)
      have addr : n.data.addr = none := congrArg CacheData.addr data
      refine Or.inr (Or.inl ⟨it, n.data.callbacks, n.uses, now, queued, ?_⟩)
      have calling : (drain opt it n now).1 =
          .calling it n.data.callbacks none n.uses now [] := by
        simp [drain, queued, addr, nothing]
      exact calling ▸ mem_set_self _ found
  | dangles found uses erased => exact absurd erased (single.node_ne_none found uses)
  | _ => exact absurd trivial late

end Step

variable [DecidableEq κ]

theorem ReachableIf.punctual {s : State κ A} (reach : ReachableIf opt (Timely opt) s) :
    Punctual opt s := by
  have known : ∀ s : State κ A, ReachableIf opt (Timely opt) s →
      SingleTask s ∧ History s ∧ Explained s :=
    fun s reach => ⟨reach.singleTask, reach.history, reach.explained⟩
  refine Runs.Reachable.strengthen known (fun _ => init_punctual) ?_ reach
  rintro s t ⟨single, history, inv⟩ punctual ⟨a, timely, stepped⟩
  exact punctual_kept single history inv punctual timely (step_cases stepped)

/-- The defaults of `DnsResolver::Options`. -/
def defaults : Options where
  dns_cache_ttl := 300000000000
  dns_cache_refresh_period := 75000000000
  dns_cache_refresh_duration := 3600000000000

/-- The same name 10 seconds after boot. -/
def noLookup : State ℕ ℕ where
  clock := 10000000000
  nodes := [{ key := [], data := { used_at := 10000000000, use_count := 1 }, uses := 1 }]
  calls := [.done]
  workers := [.calling 0 [0] none 0 10000000000 []]
  issued := [0]

/-- The longest `Duration` as the ttl, and an address that was looked up 100 seconds after boot:
`Resolve` has refused it, since the sum has overflowed. -/
def refused : State ℕ ℕ where
  clock := 100000000000
  nodes := [{
    key := []
    data := { addr := some ⟨[8], 0, by decide⟩, used_at := 100000000000
              resolved_at := 100000000000, successfully_resolved_at := 100000000000
              use_count := 2 }
    lookups := [⟨100000000000, some ⟨[8], 0, by decide⟩, some 100000000000, 0⟩]
    uses := 2 }]
  calls := [.done, .calling ⟨1, none, 0, 1, 100000000000,
    [⟨100000000000, some ⟨[8], 0, by decide⟩, some 100000000000, 0⟩]⟩]
  workers := [.calling 0 [] (some ⟨[8], 0, by decide⟩) 1 100000000000
    [⟨100000000000, some ⟨[8], 0, by decide⟩, some 100000000000, 0⟩]]
  issued := [0, 1]
  answers := [⟨0, some ⟨[8], 0, by decide⟩, 0, 0, 100000000000,
    [⟨100000000000, some ⟨[8], 0, by decide⟩, some 100000000000, 0⟩]⟩]

/-- What `getaddrinfo` returned for the name. -/
def eight : { items : List ℕ // items ≠ [] } := ⟨[8], by decide⟩

theorem refused_unjustified :
    Reachable { defaults with dns_cache_ttl := 9223372036854775807 } refused ∧
    ¬ refused.Justifies { defaults with dns_cache_ttl := 9223372036854775807 } ⟨1, none, 0, 1,
      100000000000, [⟨100000000000, some ⟨[8], 0, by decide⟩, some 100000000000, 0⟩]⟩ := by
  constructor
  · exact Runs.replay_reachable
      [.call [] 0, .lockCall 0, .scheduleCall 0, .start 0, .lockWorker 0,
        .returnResolve 0 (some eight), .readClock 0, .lockRecord 0, .callback 0, .call [] 1,
        .lockCall 1]
      (.start ⟨100000000000, rfl⟩) rfl
  · rintro ⟨n, found, _, stale⟩
    cases found
    exact absurd (stale _ (List.mem_singleton_self _) rfl) (by decide)

/-- The name could not be resolved at 100, and 75 later the refresh has returned with an address,
but `Resolve` has picked what there was before. -/
def overtaken : State ℕ ℕ where
  clock := 175
  nodes := [{
    key := []
    data := { used_at := 175, resolved_at := 100, use_count := 2 }
    lookups := [⟨100, none, some 100, 0⟩, ⟨175, some ⟨[8], 0, by decide⟩, none, 0⟩]
    uses := 2 }]
  calls := [.done, .calling ⟨1, none, 0, 1, 175, [⟨100, none, some 100, 0⟩]⟩]
  workers := [.done, .resolved 0 1 (some ⟨[8], 0, by decide⟩)]
  issued := [0, 1]
  answers := [⟨0, none, 0, 0, 100, [⟨100, none, some 100, 0⟩]⟩]

theorem overtaken_unjustified : Reachable ⟨300, 75, 3600⟩ overtaken ∧
    ¬ overtaken.Justifies ⟨300, 75, 3600⟩ ⟨1, none, 0, 1, 175, [⟨100, none, some 100, 0⟩]⟩ := by
  constructor
  · exact Runs.replay_reachable
      [.call [] 0, .lockCall 0, .scheduleCall 0, .start 0, .lockWorker 0, .returnResolve 0 none,
        .readClock 0, .lockRecord 0, .callback 0, .relock 0, .schedule 0, .tick 75, .start 0,
        .lockWorker 1, .call [] 1, .lockCall 1, .returnResolve 1 (some eight)]
      (.start ⟨100, rfl⟩) rfl
  · rintro ⟨n, found, _, stale⟩
    cases found
    have fresh := stale _ (List.mem_cons_of_mem _ (List.mem_singleton_self _)) rfl
    exact absurd fresh (by decide)

end Hcproxy.Dns
