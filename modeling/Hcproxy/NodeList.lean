import Hcproxy.Lib.Linked
import Hcproxy.Lib.Runs

set_option autoImplicit false

namespace Hcproxy.NodeList

open Linked

variable {P : Type} [DecidableEq P]

/-- The calls of `List`. -/
inductive Op (P : Type)
  | addTail (node : P)
  | erase (node : P)
  deriving DecidableEq

/-- The heap of nodes and the two pointers of one list. -/
structure State (P : Type) where
  memory : Memory P
  list : Chain P := {}

/-- One call. `none` where a check fails or a pointer dangles. -/
def step (s : State P) : Op P → Option (State P)
  | .addTail node => (addTail s.memory s.list node).map fun (memory, list) => ⟨memory, list⟩
  | .erase node => (erase s.memory s.list node).map fun (memory, list) => ⟨memory, list⟩

/-- What a call does to the sequence that the list stands for. -/
def Op.apply (items : List P) : Op P → List P
  | .addTail node => items ++ [node]
  | .erase node => items.erase node

/-- What the caller has to see to. -/
def Op.Admitted (s : State P) (items : List P) : Op P → Prop
  | .addTail node => node ∉ items ∧ s.memory node = some {}
  | .erase node => node ∈ items

instance (s : State P) (items : List P) : (op : Op P) → Decidable (op.Admitted s items)
  | .addTail node => inferInstanceAs (Decidable (node ∉ items ∧ s.memory node = some {}))
  | .erase node => inferInstanceAs (Decidable (node ∈ items))

/-- Each call of the run is admitted where it is made. -/
def Legal : State P → List P → List (Op P) → Prop
  | _, _, [] => True
  | s, items, op :: rest =>
    op.Admitted s items ∧ ∀ t ∈ step s op, Legal t (op.apply items) rest

instance decidableLegal (s : State P) (items : List P) : (ops : List (Op P)) →
    Decidable (Legal s items ops)
  | [] => inferInstanceAs (Decidable True)
  | op :: rest =>
    have (t : State P) : Decidable (Legal t (op.apply items) rest) := decidableLegal t _ rest
    inferInstanceAs (Decidable (_ ∧ ∀ t ∈ step s op, Legal t (op.apply items) rest))

/-- The sequence after the calls. -/
def sequence (ops : List (Op P)) : List P := ops.foldl Op.apply []

/-- The list stands for `items`, all of which were unlinked in the heap that the run began
with, and that heap is otherwise untouched. -/
structure Stands (memory : Memory P) (s : State P) (items : List P) : Prop where
  spells : Spells s.memory s.list items
  unlinked : ∀ n ∈ items, memory n = some {}
  outside : ∀ n, n ∉ items → s.memory n = memory n

section Step

variable {memory : Memory P} {s : State P} {items : List P} {op : Op P}

theorem step_stands (stands : Stands memory s items) (admitted : op.Admitted s items) :
    ∃ t, step s op = some t ∧ Stands memory t (op.apply items) := by
  cases op with
  | addTail n =>
      obtain ⟨fresh, found⟩ := admitted
      obtain ⟨mem', l', linked, spells, outside, -⟩ := addTail_spells stands.spells fresh found
      refine ⟨⟨mem', l'⟩, by simp [step, linked], spells, ?_, ?_⟩
      · intro m member
        rcases List.mem_append.mp member with old | new
        · exact stands.unlinked m old
        · rw [List.mem_singleton] at new
          subst new
          rw [← stands.outside m fresh, found]
      · intro m other
        have unlisted : m ∉ items := fun member => other (List.mem_append_left _ member)
        show mem' m = memory m
        rw [outside m other, stands.outside m unlisted]
  | erase n =>
      have member : n ∈ items := admitted
      obtain ⟨front, back, rfl⟩ := List.append_of_mem member
      have nodup := stands.spells.nodup
      rw [List.nodup_middle, List.nodup_cons] at nodup
      have first : n ∉ front := fun member => nodup.1 (List.mem_append_left _ member)
      have shorter : (Op.erase n).apply (front ++ n :: back) = front ++ back := by
        simp [Op.apply, List.erase_append_right _ first]
      obtain ⟨mem', l', erased, spells, empty, outside, -⟩ := erase_spells stands.spells
      refine ⟨⟨mem', l'⟩, by simp [step, erased], ?_⟩
      rw [shorter]
      refine ⟨spells, ?_, ?_⟩
      · intro m member
        apply stands.unlinked m
        simp only [List.mem_append, List.mem_cons] at member ⊢
        tauto
      · intro m other
        show mem' m = memory m
        by_cases same : m = n
        · subst same
          rw [empty, stands.unlinked m (by simp)]
        · have unlisted : m ∉ front ++ n :: back := by simpa [same] using other
          rw [outside m unlisted, stands.outside m unlisted]

theorem replay_stands {ops : List (Op P)} (stands : Stands memory s items)
    (legal : Legal s items ops) :
    ∃ t, Runs.replay step s ops = some t ∧ Stands memory t (ops.foldl Op.apply items) := by
  induction ops generalizing s items with
  | nil => exact ⟨s, rfl, stands⟩
  | cons op rest ih =>
      obtain ⟨admitted, later⟩ := legal
      obtain ⟨t, stepped, stands⟩ := step_stands stands admitted
      obtain ⟨u, ran, stands⟩ := ih stands (later t stepped)
      refine ⟨u, ?_, stands⟩
      show (step s op).bind _ = some u
      rw [stepped]
      exact ran

/-- A node that a legal run erases was unlinked in the heap that the run began with. -/
theorem unlinked_of_erased {ops : List (Op P)} {n : P} (stands : Stands memory s items)
    (legal : Legal s items ops) (erased : Op.erase n ∈ ops) : memory n = some {} := by
  induction ops generalizing s items with
  | nil => cases erased
  | cons op rest ih =>
      obtain ⟨admitted, later⟩ := legal
      rcases List.mem_cons.mp erased with rfl | erased
      · exact stands.unlinked n admitted
      · obtain ⟨t, stepped, stands⟩ := step_stands stands admitted
        exact ih stands (later t stepped) erased

end Step

/-- Over any heap, a list that starts empty and is called as it should be never fails a check
and always spells the sequence of its nodes, forwards from the head and backwards from the
tail. Erased nodes have null links and the nodes outside the list are left alone. -/
theorem list_refines_sequence (memory : Memory P) (ops : List (Op P))
    (legal : Legal ⟨memory, {}⟩ [] ops) :
    ∃ s, Runs.replay step ⟨memory, {}⟩ ops = some s ∧
      (sequence ops).Nodup ∧
      (∀ fuel, (sequence ops).length ≤ fuel →
        walk Node.next s.memory fuel s.list.head = some (sequence ops) ∧
        walk Node.prev s.memory fuel s.list.tail = some (sequence ops).reverse) ∧
      (s.list.head = none ↔ sequence ops = []) ∧
      (s.list.tail = none ↔ sequence ops = []) ∧
      (∀ n, .erase n ∈ ops → n ∉ sequence ops → s.memory n = some {}) ∧
      ∀ n, n ∉ sequence ops → s.memory n = memory n := by
  have empty : Stands memory ⟨memory, {}⟩ [] :=
    ⟨Spells.empty, fun _ member => absurd member List.not_mem_nil, fun _ _ => rfl⟩
  obtain ⟨s, ran, stands⟩ := replay_stands empty legal
  have spells := stands.spells
  refine ⟨s, ran, spells.nodup, fun fuel enough => ⟨?_, ?_⟩, ?_, ?_, ?_, stands.outside⟩
  · rw [spells.head]
    exact walk_next spells.seg enough
  · rw [spells.tail]
    exact walk_prev spells.seg enough
  · rw [spells.head]
    exact List.head?_eq_none_iff
  · rw [spells.tail]
    exact List.getLast?_eq_none_iff
  · intro n erased other
    rw [stands.outside n other]
    exact unlinked_of_erased empty legal erased

theorem list_refines_sequence_readded :
    ∃ s, Runs.replay step ⟨fun _ => some {}, {}⟩
        [.addTail 1, .addTail 2, .addTail 3, .erase 2, .addTail 2, Op.erase 1] = some s ∧
      walk Node.next s.memory 2 s.list.head = some [3, 2] ∧
      walk Node.prev s.memory 2 s.list.tail = some [2, 3] ∧ s.memory 1 = some {} := by
  obtain ⟨s, ran, -, walks, -, -, erased, -⟩ := list_refines_sequence (fun _ => some {})
    [.addTail 1, .addTail 2, .addTail 3, .erase 2, .addTail 2, Op.erase 1] (by decide)
  refine ⟨s, ran, (walks 2 (by decide)).1, (walks 2 (by decide)).2, ?_⟩
  exact erased 1 (by decide) (by decide)

end Hcproxy.NodeList
