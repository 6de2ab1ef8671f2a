import Hcproxy.DnsTasks

set_option autoImplicit false

namespace Hcproxy.Dns

open Ring (Cursor)
open Threads

variable {κ A : Type} {opt : Options}

/-- The others have other entries. -/
theorem SingleTask.others {s : State κ A} {j it : ℕ} {w v : Worker κ A} (single : SingleTask s)
    (found : s.workers[j]? = some w) (mine : w.task it = 1) (member : v ∈ s.workers.eraseIdx j) :
    v.task it = 0 := by
  have one := single it
  have without := total_eraseIdx (Worker.task it) found
  have other := weight_le_total (Worker.task it) member
  have atMost := Bool.toNat_le (s.node it).isSome
  simp only [State.tasksFor] at one
  omega

/-- Every lookup of the entry that has returned has been recorded too. -/
def Node.Settled (n : Node κ A) : Prop := ∀ l ∈ n.lookups, l.recorded ≠ none

/-- All but the last lookup have been recorded, all of them by `bound`. -/
def Node.Awaits (n : Node κ A) (lookup : ℕ) (addr : Option (Cursor A)) (bound : ℕ) : Prop :=
  ∃ earlier finished, n.lookups = earlier ++ [⟨finished, addr, none, 0⟩] ∧
    earlier.length = lookup ∧ finished ≤ bound ∧
    ∀ l ∈ earlier, ∃ r, l.recorded = some r ∧ r ≤ bound

/-- The entry whose lookup the worker has yet to record. -/
def Worker.unrecorded : Worker κ A → Option ℕ
  | .resolved it _ _ | .recording it _ _ _ => some it
  | _ => none

theorem Worker.task_of_unrecorded {w : Worker κ A} {it : ℕ} (holds : w.unrecorded = some it) :
    w.task it = 1 := by
  cases w <;> simp_all [Worker.unrecorded, Worker.task]

/-- What a worker that has yet to record a lookup knows of it. -/
def Worker.Awaits (clock : ℕ) (nodes : List (Node κ A)) : Worker κ A → Prop
  | .resolved it lookup addr => ∃ n, nodes[it]? = some n ∧ n.Awaits lookup addr clock
  | .recording it lookup addr now =>
    now ≤ clock ∧ ∃ n, nodes[it]? = some n ∧ n.Awaits lookup addr now
  | _ => True

theorem Worker.Awaits.of_quiet {clock : ℕ} {nodes : List (Node κ A)} {w : Worker κ A}
    (quiet : w.unrecorded = none) : w.Awaits clock nodes := by
  cases w <;> trivial

/-- Lookups are recorded one by one, in the order in which they return. -/
structure History (s : State κ A) : Prop where
  readings : ∀ n ∈ s.nodes, ∀ l ∈ n.lookups, ∀ r ∈ l.recorded, r ≤ s.clock
  awaits : ∀ w ∈ s.workers, w.Awaits s.clock s.nodes
  settled : ∀ it n, s.nodes[it]? = some n →
    n.Settled ∨ ∃ w ∈ s.workers, w.unrecorded = some it

theorem Node.Awaits.later {n m : Node κ A} {lookup bound later : ℕ} {addr : Option (Cursor A)}
    (awaits : n.Awaits lookup addr bound) (same : m.lookups = n.lookups) (le : bound ≤ later) :
    m.Awaits lookup addr later := by
  obtain ⟨earlier, finished, lookups, length, before, recorded⟩ := awaits
  refine ⟨earlier, finished, same.trans lookups, length, by omega, ?_⟩
  intro l member
  obtain ⟨r, isRecorded, early⟩ := recorded l member
  exact ⟨r, isRecorded, by omega⟩

/-- What a worker knows survives every change that keeps the lookups of its entry. -/
theorem Worker.Awaits.later {clock later : ℕ} {nodes after : List (Node κ A)} {w : Worker κ A}
    (awaits : w.Awaits clock nodes) (le : clock ≤ later)
    (kept : ∀ it n, w.unrecorded = some it → nodes[it]? = some n →
      ∃ m, after[it]? = some m ∧ m.lookups = n.lookups) : w.Awaits later after := by
  cases w with
  | resolved it lookup addr =>
      obtain ⟨n, found, awaits⟩ := awaits
      obtain ⟨m, foundAfter, same⟩ := kept it n rfl found
      exact ⟨m, foundAfter, awaits.later same le⟩
  | recording it lookup addr now =>
      obtain ⟨early, n, found, awaits⟩ := awaits
      obtain ⟨m, foundAfter, same⟩ := kept it n rfl found
      exact ⟨by omega, m, foundAfter, awaits.later same (Nat.le_refl now)⟩
  | locking | resolving | calling | scheduling | done | dangling => trivial

/-- A node that is written to. -/
theorem getElem?_set_cases {nodes : List (Node κ A)} {it i : ℕ} {m k : Node κ A}
    (found : (nodes.set it m)[i]? = some k) :
    (i = it ∧ k = m) ∨ (i ≠ it ∧ nodes[i]? = some k) := by
  rw [List.getElem?_set] at found
  split at found
  · rename_i same
    split at found
    · exact Or.inl ⟨same.symm, (Option.some.inj found).symm⟩
    · cases found
  · rename_i other
    exact Or.inr ⟨fun same => other same.symm, found⟩

/-- No lookup of an entry returns or is recorded between the two. -/
def SameLookups (nodes after : List (Node κ A)) : Prop :=
  (∀ (it : ℕ) (n : Node κ A), nodes[it]? = some n →
    ∃ m : Node κ A, after[it]? = some m ∧ m.lookups = n.lookups) ∧
  ∀ (it : ℕ) (m : Node κ A), after[it]? = some m →
    m.lookups = [] ∨ ∃ n : Node κ A, nodes[it]? = some n ∧ m.lookups = n.lookups

/-- The workers that have yet to record a lookup stay where they are. -/
def SameUnrecorded (workers after : List (Worker κ A)) : Prop :=
  (∀ w ∈ workers, w.unrecorded ≠ none → w ∈ after) ∧
  ∀ w ∈ after, w ∈ workers ∨ w.unrecorded = none

theorem SameLookups.refl (nodes : List (Node κ A)) : SameLookups nodes nodes :=
  ⟨fun _ n found => ⟨n, found, rfl⟩, fun _ m found => Or.inr ⟨m, found, rfl⟩⟩

theorem SameLookups.set {nodes : List (Node κ A)} {it : ℕ} {n m : Node κ A}
    (found : nodes[it]? = some n) (same : m.lookups = n.lookups) :
    SameLookups nodes (nodes.set it m) := by
  constructor
  · intro i k before
    by_cases here : it = i
    · subst here
      obtain ⟨inside, _⟩ := List.getElem?_eq_some_iff.mp found
      have : n = k := Option.some.inj (found.symm.trans before)
      exact ⟨m, by simp [inside], this ▸ same⟩
    · exact ⟨k, by rw [List.getElem?_set_ne here]; exact before, rfl⟩
  · intro i k after
    rcases getElem?_set_cases after with ⟨rfl, rfl⟩ | ⟨_, before⟩
    · exact Or.inr ⟨n, found, same⟩
    · exact Or.inr ⟨k, before, rfl⟩

theorem SameLookups.append {nodes : List (Node κ A)} {n : Node κ A} (new : n.lookups = []) :
    SameLookups nodes (nodes ++ [n]) := by
  constructor
  · intro i k before
    obtain ⟨inside, _⟩ := List.getElem?_eq_some_iff.mp before
    exact ⟨k, by rw [List.getElem?_append_left inside]; exact before, rfl⟩
  · intro i k after
    rcases List.mem_append.mp (List.mem_of_getElem? after) with _ | member
    · by_cases inside : i < nodes.length
      · rw [List.getElem?_append_left inside] at after
        exact Or.inr ⟨k, after, rfl⟩
      · rw [List.getElem?_append_right (by omega)] at after
        cases List.mem_singleton.mp (List.mem_of_getElem? after)
        exact Or.inl new
    · cases List.mem_singleton.mp member
      exact Or.inl new

theorem SameUnrecorded.refl (workers : List (Worker κ A)) : SameUnrecorded workers workers :=
  ⟨fun _ member _ => member, fun _ member => Or.inl member⟩

theorem SameUnrecorded.set {workers : List (Worker κ A)} {j : ℕ} {w y : Worker κ A}
    (found : workers[j]? = some w) (before : w.unrecorded = none) (after : y.unrecorded = none) :
    SameUnrecorded workers (workers.set j y) := by
  constructor
  · intro v member holds
    rcases mem_set_of_mem y found member with rfl | kept
    · exact absurd before holds
    · exact kept
  · intro v member
    rcases mem_set member with rfl | member
    · exact Or.inr after
    · exact Or.inl member

theorem SameUnrecorded.append {workers : List (Worker κ A)} {w : Worker κ A}
    (new : w.unrecorded = none) : SameUnrecorded workers (workers ++ [w]) := by
  constructor
  · intro v member _
    exact List.mem_append_left _ member
  · intro v member
    rcases List.mem_append.mp member with member | member
    · exact Or.inl member
    · cases List.mem_singleton.mp member
      exact Or.inr new

/-- Steps that neither return from a lookup nor record one. -/
theorem History.quiet {s t : State κ A} (inv : History s) (clock : s.clock ≤ t.clock)
    (nodes : SameLookups s.nodes t.nodes) (workers : SameUnrecorded s.workers t.workers) :
    History t := by
  refine ⟨?_, ?_, ?_⟩
  · intro m member l inside r recorded
    obtain ⟨it, found⟩ := List.mem_iff_getElem?.mp member
    rcases nodes.2 it m found with empty | ⟨n, before, same⟩
    · simp [empty] at inside
    · have := inv.readings n (List.mem_of_getElem? before) l (same ▸ inside) r recorded
      omega
  · intro w member
    rcases workers.2 w member with member | quiet
    · exact (inv.awaits w member).later clock fun it n _ found => nodes.1 it n found
    · exact .of_quiet quiet
  · intro it m found
    rcases nodes.2 it m found with empty | ⟨n, before, same⟩
    · exact Or.inl fun l inside => by simp [empty] at inside
    · rcases inv.settled it n before with settled | ⟨w, member, holds⟩
      · exact Or.inl fun l inside => settled l (same ▸ inside)
      · exact Or.inr ⟨w, workers.1 w member (by simp [holds]), holds⟩

@[simp] theorem drain_lookups (it : ℕ) (n : Node κ A) (now : ℕ) :
    (drain opt it n now).2.lookups = n.lookups := by
  unfold drain
  split <;> rfl

@[simp] theorem drain_unrecorded (it : ℕ) (n : Node κ A) (now : ℕ) :
    (drain opt it n now).1.unrecorded = none := by
  unfold drain
  split <;> rfl

theorem History.awaits_of_recording {s : State κ A} {j it lookup now : ℕ}
    {addr : Option (Cursor A)} {n : Node κ A} (inv : History s)
    (found : s.workers[j]? = some (.recording it lookup addr now)) (node : s.node it = some n) :
    n.Awaits lookup addr now := by
  obtain ⟨_, m, same, awaits⟩ := inv.awaits _ (List.mem_of_getElem? found)
  cases Option.some.inj (same.symm.trans (State.node_eq_some.mp node).1)
  exact awaits

theorem recordLookup_append (earlier : List (Lookup A)) (l : Lookup A) (now uses : ℕ) :
    recordLookup (earlier ++ [l]) earlier.length now uses =
      earlier ++ [{ l with recorded := some now, uses }] := by
  induction earlier with
  | nil => rfl
  | cons first rest ih => simpa [recordLookup] using ih

/-- While its only worker is not waiting to record anything, an entry is settled. -/
theorem History.settled_of_worker {s : State κ A} {j it : ℕ} {w : Worker κ A} {n : Node κ A}
    (inv : History s) (single : SingleTask s) (found : s.workers[j]? = some w)
    (mine : w.task it = 1) (quiet : w.unrecorded = none) (node : s.nodes[it]? = some n) :
    n.Settled := by
  rcases inv.settled it n node with settled | ⟨v, member, holds⟩
  · exact settled
  · have task := Worker.task_of_unrecorded holds
    rcases mem_set_of_mem .done found member with rfl | kept
    · simp [quiet] at holds
    · rcases mem_set_other kept with rfl | other
      · cases holds
      · have := single.others found mine other
        omega

/-- A worker that has yet to record a lookup is not disturbed by what another one does to the
entry that only it holds. -/
theorem History.awaits_of_other {s : State κ A} {j it : ℕ} {w v : Worker κ A} {m : Node κ A}
    (inv : History s) (single : SingleTask s) (found : s.workers[j]? = some w)
    (mine : w.task it = 1) (member : v ∈ s.workers.eraseIdx j) :
    v.Awaits s.clock (s.nodes.set it m) := by
  refine (inv.awaits v (List.mem_of_mem_eraseIdx member)).later (Nat.le_refl _) ?_
  intro i n holds node
  have other := single.others found mine member
  have task := Worker.task_of_unrecorded holds
  have different : it ≠ i := by
    rintro rfl
    omega
  exact ⟨n, by rw [List.getElem?_set_ne different]; exact node, rfl⟩

/-- Entries other than the one that the moving worker holds stay as settled as they were. -/
theorem History.settled_of_other {s : State κ A} {j it i : ℕ} {w y : Worker κ A} {n : Node κ A}
    (inv : History s) (found : s.workers[j]? = some w) (mine : w.task it = 1)
    (other : i ≠ it) (node : s.nodes[i]? = some n) :
    n.Settled ∨ ∃ v ∈ s.workers.set j y, v.unrecorded = some i := by
  rcases inv.settled i n node with settled | ⟨v, member, holds⟩
  · exact Or.inl settled
  · rcases mem_set_of_mem y found member with rfl | kept
    · have task := Worker.task_of_unrecorded holds
      cases v <;> simp_all [Worker.unrecorded, Worker.task]
    · exact Or.inr ⟨v, kept, holds⟩

theorem history_kept {s t : State κ A} {a : Action κ A} (single : SingleTask s)
    (inv : History s) (moved : Moved opt s a t) : History t := by
  cases moved with
  | tick elapsed => exact inv.quiet (Nat.le_add_right _ _) (.refl _) (.refl _)
  | call fresh => exact inv.quiet (Nat.le_refl _) (.refl _) (.refl _)
  | creates found absent => exact inv.quiet (Nat.le_refl _) (.append rfl) (.refl _)
  | queues found cached node busy =>
      exact inv.quiet (Nat.le_refl _) (.set (State.node_eq_some.mp node).1 rfl) (.refl _)
  | answers found cached node idle =>
      exact inv.quiet (Nat.le_refl _) (.set (State.node_eq_some.mp node).1 rfl) (.refl _)
  | schedules found => exact inv.quiet (Nat.le_refl _) (.refl _) (.refl _)
  | calls found => exact inv.quiet (Nat.le_refl _) (.refl _) (.refl _)
  | starts found due => exact inv.quiet (Nat.le_refl _) (.refl _) (.append rfl)
  | erases found node empty unused =>
      exact inv.quiet (Nat.le_refl _) (.set (State.node_eq_some.mp node).1 rfl)
        (.set found rfl rfl)
  | looksUp found node stale => exact inv.quiet (Nat.le_refl _) (.refl _) (.set found rfl rfl)
  | skips found node recent =>
      exact inv.quiet (Nat.le_refl _)
        (.set (State.node_eq_some.mp node).1 (drain_lookups _ _ _))
        (.set found rfl (drain_unrecorded _ _ _))
  | @returns j it n found node result =>
      obtain ⟨foundNode, present⟩ := State.node_eq_some.mp node
      obtain ⟨inside, _⟩ := List.getElem?_eq_some_iff.mp foundNode
      have mine : (Worker.resolving it : Worker κ A).task it = 1 := by simp [Worker.task]
      have settled := inv.settled_of_worker single found mine rfl foundNode
      refine ⟨?_, ?_, ?_⟩
      · intro m member l inside r recorded
        rcases mem_set member with rfl | member
        · rcases List.mem_append.mp inside with inside | inside
          · exact inv.readings n (List.mem_of_getElem? foundNode) l inside r recorded
          · cases List.mem_singleton.mp inside
            cases recorded
        · exact inv.readings m member l inside r recorded
      · intro v member
        rcases mem_set_other member with rfl | other
        · refine ⟨_, by simp [inside]; rfl, n.lookups, s.clock, rfl, rfl, Nat.le_refl _, ?_⟩
          intro l member
          obtain ⟨r, recorded⟩ := Option.ne_none_iff_exists'.mp (settled l member)
          exact ⟨r, recorded, inv.readings n (List.mem_of_getElem? foundNode) l member r recorded⟩
        · exact inv.awaits_of_other single found mine other
      · intro i m after
        rcases getElem?_set_cases after with ⟨rfl, _⟩ | ⟨other, before⟩
        · exact Or.inr ⟨_, mem_set_self _ found, rfl⟩
        · exact inv.settled_of_other found mine other before
  | @reads j it lookup addr found =>
      have mine : (Worker.resolved it lookup addr : Worker κ A).task it = 1 := by
        simp [Worker.task]
      refine ⟨inv.readings, ?_, ?_⟩
      · intro v member
        rcases mem_set member with rfl | member
        · exact ⟨Nat.le_refl _, inv.awaits _ (List.mem_of_getElem? found)⟩
        · exact inv.awaits v member
      · intro i m node
        by_cases here : i = it
        · subst here
          exact Or.inr ⟨_, mem_set_self _ found, rfl⟩
        · exact inv.settled_of_other found mine here node
  | @records j it lookup now addr n found node =>
      obtain ⟨foundNode, present⟩ := State.node_eq_some.mp node
      have mine : (Worker.recording it lookup addr now : Worker κ A).task it = 1 := by
        simp [Worker.task]
      obtain ⟨early, k, same, earlier, finished, lookups, rfl, _, recorded⟩ :=
        inv.awaits _ (List.mem_of_getElem? found)
      cases Option.some.inj (foundNode.symm.trans same)
      have after : (n.record earlier.length addr now).lookups =
          earlier ++ [⟨finished, addr, some now, n.uses⟩] := by
        simp only [Node.record, lookups, recordLookup_append]
      have known : ∀ l ∈ (n.record earlier.length addr now).lookups,
          ∃ r, l.recorded = some r ∧ r ≤ now := by
        intro l inside
        rw [after] at inside
        rcases List.mem_append.mp inside with inside | inside
        · exact recorded l inside
        · cases List.mem_singleton.mp inside
          exact ⟨now, rfl, Nat.le_refl _⟩
      refine ⟨?_, ?_, ?_⟩
      · intro m member l inside r isRecorded
        rcases mem_set member with rfl | member
        · rw [drain_lookups] at inside
          obtain ⟨r', same, le⟩ := known l inside
          cases Option.some.inj (same.symm.trans isRecorded)
          exact Nat.le_trans le early
        · exact inv.readings m member l inside r isRecorded
      · intro v member
        rcases mem_set_other member with rfl | other
        · exact .of_quiet (drain_unrecorded _ _ _)
        · exact inv.awaits_of_other single found mine other
      · intro i m after
        rcases getElem?_set_cases after with ⟨rfl, rfl⟩ | ⟨other, before⟩
        · left
          intro l inside
          rw [drain_lookups] at inside
          obtain ⟨r, same, _⟩ := known l inside
          simp [same]
        · exact inv.settled_of_other found mine other before
  | callsBack found => exact inv.quiet (Nat.le_refl _) (.refl _) (.set found rfl rfl)
  | relocks found node => exact inv.quiet (Nat.le_refl _) (.refl _) (.set found rfl rfl)
  | reschedules found => exact inv.quiet (Nat.le_refl _) (.refl _) (.set found rfl rfl)
  | dangles found uses erased => exact absurd erased (single.node_ne_none found uses)

/-- The readings of calls are not from the future. -/
theorem arriving_kept {s t : State κ A} {a : Action κ A}
    (arriving : ∀ host_port cb now, .locking host_port cb now ∈ s.calls → now ≤ s.clock)
    (moved : Moved opt s a t) :
    ∀ host_port cb now, .locking host_port cb now ∈ t.calls → now ≤ t.clock := by
  intro host_port cb now member
  have moves : ∀ {i : ℕ} {y : Call κ A}, .locking host_port cb now ∈ s.calls.set i y →
      y ≠ .locking host_port cb now → now ≤ s.clock := by
    intro i y member different
    rcases mem_set member with same | member
    · exact absurd same.symm different
    · exact arriving _ _ _ member
  cases moved with
  | tick elapsed => exact Nat.le_add_right_of_le (arriving _ _ _ member)
  | call fresh =>
      rcases List.mem_append.mp member with member | member
      · exact arriving _ _ _ member
      · cases List.mem_singleton.mp member
        exact Nat.le_refl _
  | creates | queues | answers | schedules | calls => exact moves member nofun
  | _ => exact arriving _ _ _ member

theorem init_history {s : State κ A} (init : Init s) : History s := by
  obtain ⟨clock, rfl⟩ := init
  exact ⟨by simp, by simp, by simp⟩

end Hcproxy.Dns
