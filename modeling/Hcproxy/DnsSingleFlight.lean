import Hcproxy.DnsCallbacks
import Hcproxy.DnsHistory

set_option autoImplicit false

namespace Hcproxy.Dns

open Ring (Cursor)
open Threads

variable {κ A : Type} {opt : Options}

/-- No two entries of `cache_` are for one name. -/
def UniqueKeys (s : State κ A) : Prop :=
  ∀ i j m n, s.node i = some m → s.node j = some n → m.key = n.key → i = j

/-- No worker has used its iterator after `erase`. -/
def NoneDangles (s : State κ A) : Prop := .dangling ∉ s.workers

/-- There is no entry to find. -/
theorem State.find_none {s : State κ A} {host_port : HostPort} (absent : s.find host_port = none)
    {i : ℕ} {n : Node κ A} (node : s.node i = some n) : n.key ≠ host_port := by
  obtain ⟨found, present⟩ := State.node_eq_some.mp node
  have different := List.findIdx?_eq_none_iff.mp absent n (List.mem_of_getElem? found)
  intro same
  simp [present, same] at different

theorem UniqueKeys.of_same {s t : State κ A} (unique : UniqueKeys s) (nodes : t.nodes = s.nodes) :
    UniqueKeys t := by
  unfold UniqueKeys State.node
  rw [nodes]
  exact unique

theorem UniqueKeys.set {s t : State κ A} {it : ℕ} {n m : Node κ A} (unique : UniqueKeys s)
    (node : s.node it = some n) (nodes : t.nodes = s.nodes.set it m) (key : m.key = n.key) :
    UniqueKeys t := by
  have before : ∀ i k, t.node i = some k → ∃ old, s.node i = some old ∧ k.key = old.key := by
    intro i k found
    rw [node_set nodes node] at found
    split at found
    · rename_i same
      subst same
      split at found
      · cases found
        exact ⟨n, node, key⟩
      · cases found
    · exact ⟨k, found, rfl⟩
  intro i j k l foundK foundL same
  obtain ⟨oldK, nodeK, keyK⟩ := before i k foundK
  obtain ⟨oldL, nodeL, keyL⟩ := before j l foundL
  exact unique i j oldK oldL nodeK nodeL (keyK.symm.trans (same.trans keyL))

theorem drain_ne_dangling (it : ℕ) (n : Node κ A) (now : ℕ) :
    (drain opt it n now).1 ≠ .dangling := by
  unfold drain
  split <;> simp

theorem uniqueKeys_kept {s t : State κ A} {a : Action κ A} (single : SingleTask s)
    (unique : UniqueKeys s) (moved : Moved opt s a t) : UniqueKeys t := by
  cases moved with
  | tick | call | schedules | calls | starts | looksUp | reads | callsBack | relocks
  | reschedules => exact unique.of_same rfl
  | @creates c now host_port cb found absent =>
      intro i j m n foundM foundN same
      rw [node_append (s := s) rfl rfl] at foundM foundN
      split at foundM
      · rename_i newM
        cases foundM
        split at foundN
        · rename_i newN
          exact newM.trans newN.symm
        · exact absurd same.symm (State.find_none absent foundN)
      · split at foundN
        · cases foundN
          exact absurd same (State.find_none absent foundM)
        · exact unique i j m n foundM foundN same
  | queues found cached node busy => exact unique.set node rfl rfl
  | answers found cached node idle => exact unique.set node rfl rfl
  | erases found node empty unused => exact unique.set node rfl rfl
  | skips found node recent => exact unique.set node rfl (drain_key _ _ _)
  | returns found node result => exact unique.set node rfl rfl
  | records found node => exact unique.set node rfl (drain_key _ _ _)
  | dangles found uses erased => exact absurd erased (single.node_ne_none found uses)

theorem NoneDangles.set {s t : State κ A} {j : ℕ} {y : Worker κ A} (fine : NoneDangles s)
    (moves : y ≠ .dangling) (workers : t.workers = s.workers.set j y) : NoneDangles t := by
  intro member
  rw [workers] at member
  rcases mem_set member with same | member
  · exact moves same.symm
  · exact fine member

theorem noneDangles_kept {s t : State κ A} {a : Action κ A} (single : SingleTask s)
    (fine : NoneDangles s) (moved : Moved opt s a t) : NoneDangles t := by
  cases moved with
  | tick | call | creates | queues | answers | schedules | calls => exact fine
  | starts found due =>
      intro member
      rcases List.mem_append.mp member with member | member
      · exact fine member
      · cases List.mem_singleton.mp member
  | erases | looksUp | returns | reads | callsBack | relocks | reschedules =>
      exact fine.set (by simp) rfl
  | skips found node recent => exact fine.set (drain_ne_dangling _ _ _) rfl
  | records found node => exact fine.set (drain_ne_dangling _ _ _) rfl
  | dangles found uses erased => exact absurd erased (single.node_ne_none found uses)

/-- What holds of the entries and their tasks in every state. -/
structure SingleFlight (s : State κ A) : Prop where
  oneTask : SingleTask s
  oneEntry : UniqueKeys s
  fine : NoneDangles s
  alive : ∀ w ∈ s.workers, ∀ it, w.task it = 1 → (s.node it).isSome = true
  oneLookup : ∀ (i j it k : ℕ) (m n : Node κ A), s.workers[i]? = some (.resolving it) →
    s.workers[j]? = some (.resolving k) → s.node it = some m → s.node k = some n →
    m.key = n.key → i = j

/-- Two workers with one entry are the same. -/
theorem SingleTask.same_worker {s : State κ A} (single : SingleTask s) {i j it : ℕ}
    {v w : Worker κ A} (foundV : s.workers[i]? = some v) (foundW : s.workers[j]? = some w)
    (mineV : v.task it = 1) (mineW : w.task it = 1) : i = j := by
  apply Decidable.byContradiction
  intro different
  have other : v ∈ s.workers.eraseIdx j :=
    List.mem_eraseIdx_iff_getElem?.mpr ⟨i, different, foundV⟩
  have none := single.others foundW mineW other
  rw [mineV] at none
  cases none

theorem SingleFlight.of_parts {s : State κ A} (single : SingleTask s) (unique : UniqueKeys s)
    (fine : NoneDangles s) : SingleFlight s := by
  refine ⟨single, unique, fine, ?_, ?_⟩
  · intro w member it uses
    obtain ⟨j, found⟩ := List.mem_iff_getElem?.mp member
    exact Option.isSome_iff_ne_none.mpr (single.node_ne_none found uses)
  · intro i j it k m n foundI foundJ nodeM nodeN same
    obtain rfl := unique it k m n nodeM nodeN same
    have uses : Worker.task it (.resolving it : Worker κ A) = 1 := by simp [Worker.task]
    exact single.same_worker foundI foundJ uses uses

/-- What a step may do to the entries: only the task of an entry erases it, when its queue is
empty, and a name that no entry of `cache_` has gets an entry and a task of its own. -/
structure OwnTask (s : State κ A) (a : Action κ A) (t : State κ A) : Prop where
  erased : ∀ it n, s.node it = some n → t.node it = none → n.data.callbacks = [] ∧
    ∃ j now, a = .lockWorker j ∧ s.workers[j]? = some (.locking it now)
  created : ∀ i host_port cb now, a = .lockCall i →
    s.calls[i]? = some (.locking host_port cb now) →
    (∀ it n, s.node it = some n → n.key ≠ host_port) →
    s.nodes[s.nodes.length]? = none ∧ t.calls[i]? = some (.scheduling s.nodes.length now) ∧
      t.tasksFor s.nodes.length = 1 ∧
      t.node s.nodes.length = some { key := host_port, data := { callbacks := [cb] } }

/-- A node that is written to and stays in `cache_`. -/
theorem not_erased {s t : State κ A} {it i : ℕ} {n m k : Node κ A} (before : s.node i = some k)
    (gone : t.node i = none) (node : s.node it = some n) (nodes : t.nodes = s.nodes.set it m)
    (present : m.present = n.present) : False := by
  have same := isSome_set nodes node present i
  rw [before, gone] at same
  cases same

theorem ownTask_of_moved {s t : State κ A} {a : Action κ A} (single : SingleTask s)
    (moved : Moved opt s a t) : OwnTask s a t := by
  have after := singleTask_kept single moved
  refine ⟨?_, ?_⟩
  · intro i k before gone
    cases moved with
    | tick | call | schedules | calls | starts | looksUp | reads | callsBack | relocks
    | reschedules => exact absurd (before.symm.trans gone) (by simp)
    | creates found absent =>
        rw [node_append (s := s) rfl rfl] at gone
        split at gone
        · cases gone
        · exact absurd (before.symm.trans gone) (by simp)
    | queues found cached node busy => exact (not_erased before gone node rfl rfl).elim
    | answers found cached node idle => exact (not_erased before gone node rfl rfl).elim
    | @erases j it now n found node empty unused =>
        rw [node_set (s := s) rfl node] at gone
        split at gone
        · rename_i same
          subst same
          cases node.symm.trans before
          exact ⟨empty, j, now, rfl, found⟩
        · exact absurd (before.symm.trans gone) (by simp)
    | skips found node recent =>
        exact (not_erased before gone node rfl (drain_present _ _ _)).elim
    | returns found node result => exact (not_erased before gone node rfl rfl).elim
    | records found node =>
        exact (not_erased before gone node rfl (drain_present _ _ _)).elim
    | dangles found uses erased => exact absurd erased (single.node_ne_none found uses)
  · rintro i host_port cb now rfl calling absent
    cases moved with
    | creates found nothing =>
        cases calling.symm.trans found
        have inside := (List.getElem?_eq_some_iff.mp found).1
        have node := node_append (s := s) (t := { s with
          nodes := s.nodes ++ [{ key := host_port, data := { callbacks := [cb] } }]
          calls := s.calls.set i (.scheduling s.nodes.length now) }) rfl rfl s.nodes.length
        rw [if_pos rfl] at node
        have single := after s.nodes.length
        rw [node] at single
        exact ⟨by simp, List.getElem?_set_self inside, single, node⟩
    | queues found cached node busy =>
        cases calling.symm.trans found
        obtain ⟨n, there, key⟩ := State.find_some cached
        exact absurd key (absent _ n there)
    | answers found cached node idle =>
        cases calling.symm.trans found
        obtain ⟨n, there, key⟩ := State.find_some cached
        exact absurd key (absent _ n there)
    | dangles found uses erased => exact absurd erased (single.node_ne_none found uses)

variable [DecidableEq κ]

/-- One task for each entry of `cache_`, which alone may erase it, and no name is looked up twice
at the same time. -/
theorem single_flight {s : State κ A} (reach : Reachable opt s) :
    SingleFlight s ∧ ∀ a t, step opt s a = some t → OwnTask s a t := by
  have single := ReachableIf.singleTask reach
  have unique : UniqueKeys s := by
    refine Runs.Reachable.strengthen (J := UniqueKeys) (fun _ => ReachableIf.singleTask) ?_ ?_ reach
    · rintro s ⟨clock, rfl⟩ i j m n found
      simp [State.node] at found
    · rintro s t single unique ⟨a, _, stepped⟩
      exact uniqueKeys_kept single unique (step_cases stepped)
  have fine : NoneDangles s := by
    refine Runs.Reachable.strengthen (J := NoneDangles) (fun _ => ReachableIf.singleTask) ?_ ?_
      reach
    · rintro s ⟨clock, rfl⟩
      exact List.not_mem_nil
    · rintro s t single fine ⟨a, _, stepped⟩
      exact noneDangles_kept single fine (step_cases stepped)
  exact ⟨.of_parts single unique fine,
    fun a t stepped => ownTask_of_moved single (step_cases stepped)⟩

theorem single_flight_lookingUp :
    lookingUp.tasksFor 0 = 1 ∧ SingleFlight lookingUp :=
  have flight := single_flight lookingUp_reachable
  ⟨flight.1.oneTask 0, flight.1⟩

end Hcproxy.Dns
