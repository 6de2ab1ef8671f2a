import Mathlib.Data.List.Nodup
import Hcproxy.DnsTasks

set_option autoImplicit false

namespace Hcproxy.Dns

open Ring (Cursor)
open Threads

variable {κ A : Type} [DecidableEq κ] {opt : Options}

/-- Where a callback that was passed to `Resolve` can be. -/
inductive Place
  | arriving   -- in its own call of `Resolve`, which has not taken `mutex_` yet
  | queued     -- in `callbacks` of an entry
  | drained    -- in the local vector of a running `ProcessCacheEntry`, not called yet
  | due        -- about to be called by its own call of `Resolve`
  | called
deriving DecidableEq

def Call.arriving (cb : κ) : Call κ A → ℕ
  | .locking _ mine _ => [mine].count cb
  | _ => 0

def Call.due (cb : κ) : Call κ A → ℕ
  | .calling answer => [answer.cb].count cb
  | _ => 0

def Node.queued (cb : κ) (n : Node κ A) : ℕ := n.data.callbacks.count cb

def Worker.drained (cb : κ) : Worker κ A → ℕ
  | .calling _ callbacks _ _ _ _ => callbacks.count cb
  | _ => 0

/-- How many times a callback is in a place. -/
def State.count (s : State κ A) (cb : κ) : Place → ℕ
  | .arriving => total (Call.arriving cb) s.calls
  | .queued => total (Node.queued cb) s.nodes
  | .drained => total (Worker.drained cb) s.workers
  | .due => total (Call.due cb) s.calls
  | .called => total (fun answer => [answer.cb].count cb) s.answers

/-- A callback is somewhere, once, from the time it is passed to `Resolve`, and an entry that
queues callbacks is in `cache_`. -/
structure Placed (s : State κ A) : Prop where
  issued : s.issued.Nodup
  once : ∀ cb, s.count cb .arriving + s.count cb .queued + s.count cb .drained +
    s.count cb .due + s.count cb .called = s.issued.count cb
  cached : ∀ n ∈ s.nodes, n.data.callbacks ≠ [] → n.present = true

theorem count_cons_eq (cb first : κ) (rest : List κ) :
    (first :: rest).count cb = [first].count cb + rest.count cb := by
  change ([first] ++ rest).count cb = _
  exact List.count_append

/-- `ProcessCacheEntry` takes the whole queue, or finds none. -/
theorem drain_callbacks (opt : Options) (it : ℕ) (n : Node κ A) (now : ℕ) :
    (drain opt it n now).2.data.callbacks = [] ∧
    ∀ cb, (drain opt it n now).1.drained cb = n.queued cb := by
  unfold drain
  split
  · rename_i empty
    exact ⟨empty, fun cb => by simp [Worker.drained, Node.queued, empty]⟩
  · exact ⟨by simp, fun cb => rfl⟩

/-- A worker moves on: it may take callbacks from the nodes it writes to, and no others. -/
theorem Placed.worker_moves {s : State κ A} {j : ℕ} {w y : Worker κ A} {nodes : List (Node κ A)}
    {tasks : List (ℤ × ℕ)} (inv : Placed s) (found : s.workers[j]? = some w)
    (same : ∀ cb, total (Node.queued cb) nodes + y.drained cb =
      total (Node.queued cb) s.nodes + w.drained cb)
    (cached : ∀ n ∈ nodes, n.data.callbacks ≠ [] → n.present = true) :
    Placed { s with nodes, tasks, workers := s.workers.set j y } := by
  refine ⟨inv.issued, ?_, cached⟩
  intro cb
  have once := inv.once cb
  have workers := total_set (Worker.drained cb) y found
  have := same cb
  simp only [State.count] at once ⊢
  omega

/-- A worker that does not touch any queue moves on. -/
theorem Placed.worker_passes {s : State κ A} {j : ℕ} {w y : Worker κ A} {tasks : List (ℤ × ℕ)}
    (inv : Placed s) (found : s.workers[j]? = some w) (same : ∀ cb, y.drained cb = w.drained cb) :
    Placed { s with tasks, workers := s.workers.set j y } :=
  inv.worker_moves found (fun cb => by rw [same cb]) inv.cached

/-- A worker gives up the lock, having drained a queue that it had not touched before. -/
theorem Placed.drains {s : State κ A} {j it now : ℕ} {w : Worker κ A} {n m : Node κ A}
    (inv : Placed s) (found : s.workers[j]? = some w) (node : s.node it = some n)
    (callbacks : m.data.callbacks = n.data.callbacks) (holds : ∀ cb, w.drained cb = 0) :
    Placed { s with
      nodes := s.nodes.set it (drain opt it m now).2
      workers := s.workers.set j (drain opt it m now).1 } := by
  obtain ⟨empty, taken⟩ := drain_callbacks opt it m now
  refine inv.worker_moves found ?_ ?_
  · intro cb
    have queued := total_set (Node.queued cb) (drain opt it m now).2 (State.node_eq_some.mp node).1
    rw [taken cb, holds cb]
    simp only [Node.queued, empty, callbacks, List.count_nil] at queued ⊢
    omega
  · intro k member queued
    rcases mem_set member with rfl | member
    · exact absurd empty queued
    · exact inv.cached k member queued

theorem placed_kept {s t : State κ A} {a : Action κ A} (single : SingleTask s)
    (inv : Placed s)
    (moved : Moved opt s a t) : Placed t := by
  have once := inv.once
  simp only [State.count] at once
  have written : ∀ {it : ℕ} {m : Node κ A}, (m.data.callbacks ≠ [] → m.present = true) →
      ∀ n ∈ s.nodes.set it m, n.data.callbacks ≠ [] → n.present = true := by
    intro it m ok n member queued
    rcases mem_set member with rfl | member
    · exact ok queued
    · exact inv.cached n member queued
  cases moved with
  | tick elapsed => exact ⟨inv.issued, inv.once, inv.cached⟩
  | @call host_port mine fresh =>
      refine ⟨?_, ?_, inv.cached⟩
      · exact List.nodup_append.mpr ⟨inv.issued, by simp, by
          intro c old d new
          simp only [List.mem_singleton] at new
          rintro rfl
          exact fresh (new ▸ old)⟩
      · intro cb
        have := once cb
        simp only [State.count, total_append, total_cons, total_nil, Call.arriving, Call.due,
          List.count_append]
        omega
  | @creates c now host_port mine found absent =>
      refine ⟨inv.issued, ?_, ?_⟩
      · intro cb
        have := once cb
        have arriving := total_set (Call.arriving cb) (.scheduling s.nodes.length now) found
        have due := total_set (Call.due cb) (.scheduling s.nodes.length now) found
        simp only [Call.arriving, Call.due] at arriving due
        simp only [State.count, total_append, total_cons, total_nil, Node.queued]
        omega
      · intro n member queued
        rcases List.mem_append.mp member with member | member
        · exact inv.cached n member queued
        · cases List.mem_singleton.mp member
          rfl
  | @queues c now it host_port mine n found cached node busy =>
      obtain ⟨foundNode, present⟩ := State.node_eq_some.mp node
      refine ⟨inv.issued, ?_, written fun _ => present⟩
      intro cb
      have := once cb
      have arriving := total_set (Call.arriving cb) .done found
      have due := total_set (Call.due cb) .done found
      have queued := total_set (Node.queued cb)
        { n with data := { n.data with callbacks := n.data.callbacks ++ [mine] } } foundNode
      simp only [Call.arriving, Call.due, Node.queued, List.count_append] at arriving due queued
      simp only [State.count]
      omega
  | @answers c now it host_port mine n found cached node idle =>
      obtain ⟨foundNode, present⟩ := State.node_eq_some.mp node
      refine ⟨inv.issued, ?_, written fun _ => present⟩
      intro cb
      have := once cb
      generalize (if now < Clock.add n.data.successfully_resolved_at opt.dns_cache_ttl
        then n.data.addr else none) = addr
      have arriving := total_set (Call.arriving cb)
        (.calling ⟨mine, addr, it, n.uses, now, n.lookups⟩) found
      have due := total_set (Call.due cb)
        (.calling ⟨mine, addr, it, n.uses, now, n.lookups⟩) found
      have queued := total_set (Node.queued cb)
        { n with data := n.data.use now, uses := n.uses + 1 } foundNode
      simp only [Call.arriving, Call.due, Node.queued, use_callbacks] at arriving due queued
      simp only [State.count]
      omega
  | schedules found =>
      refine ⟨inv.issued, ?_, inv.cached⟩
      intro cb
      have := once cb
      have arriving := total_set (Call.arriving cb) .done found
      have due := total_set (Call.due cb) .done found
      simp only [Call.arriving, Call.due] at arriving due
      simp only [State.count]
      omega
  | calls found =>
      refine ⟨inv.issued, ?_, inv.cached⟩
      intro cb
      have := once cb
      have arriving := total_set (Call.arriving cb) .done found
      have due := total_set (Call.due cb) .done found
      simp only [Call.arriving, Call.due] at arriving due
      simp only [State.count, total_append, total_cons, total_nil]
      omega
  | starts found due =>
      refine ⟨inv.issued, ?_, inv.cached⟩
      intro cb
      have := once cb
      simp only [State.count, total_append, total_cons, total_nil, Worker.drained]
      omega
  | @erases j it now n found node empty unused =>
      obtain ⟨foundNode, _⟩ := State.node_eq_some.mp node
      refine inv.worker_moves found ?_ (written fun queued => absurd empty queued)
      intro cb
      have queued := total_set (Node.queued cb) { n with present := false } foundNode
      simp only [Node.queued, Worker.drained] at queued ⊢
      omega
  | looksUp found node stale => exact inv.worker_passes found fun _ => rfl
  | skips found node recent => exact inv.drains found node rfl fun _ => rfl
  | @returns j it n found node result =>
      obtain ⟨foundNode, present⟩ := State.node_eq_some.mp node
      refine inv.worker_moves found ?_ (written fun _ => present)
      intro cb
      have queued := total_set (Node.queued cb) { n with lookups := n.lookups ++
        [⟨s.clock, result.map fun items => Cursor.head items.1 items.2, none, 0⟩] } foundNode
      simp only [Node.queued, Worker.drained] at queued ⊢
      omega
  | reads found => exact inv.worker_passes found fun _ => rfl
  | records found node => exact inv.drains found node (record_callbacks _ _ _) fun _ => rfl
  | @callsBack j it index now mine rest addr seen found =>
      refine ⟨inv.issued, ?_, inv.cached⟩
      intro cb
      have := once cb
      have workers := total_set (Worker.drained cb)
        (.calling it rest (advance addr) (index + 1) now seen) found
      simp only [Worker.drained, count_cons_eq cb mine rest] at workers
      simp only [State.count, total_append, total_cons, total_nil]
      omega
  | relocks found node => exact inv.worker_passes found fun _ => rfl
  | reschedules found => exact inv.worker_passes found fun _ => rfl
  | dangles found uses erased => exact absurd erased (single.node_ne_none found uses)

theorem init_placed {s : State κ A} (init : Init s) : Placed s := by
  obtain ⟨clock, rfl⟩ := init
  exact ⟨List.nodup_nil, fun cb => by simp [State.count], by simp⟩

theorem Reachable.placed {s : State κ A} (reach : Reachable opt s) : Placed s := by
  refine Runs.Reachable.strengthen (fun s => ReachableIf.singleTask) (fun _ => init_placed)
    ?_ reach
  rintro s t single inv ⟨a, _, stepped⟩
  exact placed_kept single inv (step_cases stepped)

theorem count_cb (cb : κ) (answers : List (Answer κ A)) :
    (answers.map Answer.cb).count cb = total (fun answer => [answer.cb].count cb) answers := by
  induction answers with
  | nil => rfl
  | cons answer rest ih => rw [List.map_cons, count_cons_eq, ih, total_cons]

/-- A callback that was passed to `Resolve` is always in one place, there once, and nowhere else.
While it waits in the queue of an entry, that entry is in `cache_` and has exactly one task. -/
theorem callback_in_one_place {s : State κ A} (reach : Reachable opt s) :
    (∀ cb ∈ s.issued, ∃ place, s.count cb place = 1 ∧
      ∀ other, other ≠ place → s.count cb other = 0) ∧
    (∀ it n, s.nodes[it]? = some n → n.data.callbacks ≠ [] →
      n.present = true ∧ s.tasksFor it = 1) ∧
    (s.answers.map Answer.cb).Nodup := by
  have inv := reach.placed
  refine ⟨?_, ?_, ?_⟩
  · intro cb issued
    have once := inv.once cb
    rw [List.count_eq_one_of_mem inv.issued issued] at once
    have place : ∃ place, s.count cb place = 1 := by
      apply Classical.byContradiction
      intro nowhere
      have away : ∀ place, s.count cb place ≠ 1 := fun place one => nowhere ⟨place, one⟩
      have := away .arriving
      have := away .queued
      have := away .drained
      have := away .due
      have := away .called
      omega
    obtain ⟨place, one⟩ := place
    refine ⟨place, one, ?_⟩
    intro other different
    cases place <;> cases other <;> first | exact absurd rfl different | omega
  · intro it n found queued
    have present := inv.cached n (List.mem_of_getElem? found) queued
    refine ⟨present, ?_⟩
    have single := ReachableIf.singleTask reach it
    rwa [State.node_eq_some.mpr ⟨found, present⟩] at single
  · apply List.nodup_iff_count_le_one.mpr
    intro cb
    have once := inv.once cb
    have atMost := List.nodup_iff_count_le_one.mp inv.issued cb
    have counted := count_cb cb s.answers
    simp only [State.count] at once
    omega

/-- Two calls of `Resolve` for one name wait for the same lookup. -/
def lookingUp : State ℕ ℕ where
  clock := 5
  nodes := [{ key := [], data := { callbacks := [0, 1] } }]
  calls := [.done, .done]
  workers := [.resolving 0]
  issued := [0, 1]

theorem lookingUp_reachable : Reachable ⟨1, 1, 1⟩ lookingUp :=
  Runs.replay_reachable
    [.call [] 0, .lockCall 0, .call [] 1, .lockCall 1, .scheduleCall 0, .start 0, .lockWorker 0]
    (.start ⟨5, rfl⟩) rfl

theorem callback_in_one_place_lookingUp :
    (∃ place, lookingUp.count 1 place = 1 ∧
      ∀ other, other ≠ place → lookingUp.count 1 other = 0) ∧
    lookingUp.tasksFor 0 = 1 :=
  have placed := callback_in_one_place lookingUp_reachable
  ⟨placed.1 1 (by decide), (placed.2.1 0 _ rfl (by decide)).2⟩

end Hcproxy.Dns
