import Mathlib.Logic.Function.Iterate
import Mathlib.Data.Nat.ModEq

set_option autoImplicit false

namespace Ring

variable {A : Type}

/-- A position on a ring of items. A ring has at least one item. -/
structure Cursor (A : Type) where
  items : List A
  pos : ℕ
  inside : pos < items.length

/-- The position of the first item. -/
def Cursor.head (items : List A) (filled : items ≠ []) : Cursor A :=
  ⟨items, 0, List.length_pos_iff.mpr filled⟩

/-- One step around the ring. -/
def Cursor.next (c : Cursor A) : Cursor A :=
  ⟨c.items, (c.pos + 1) % c.items.length, Nat.mod_lt _ (Nat.zero_lt_of_lt c.inside)⟩

@[simp] theorem Cursor.head_items (items : List A) (filled : items ≠ []) :
    (head items filled).items = items := rfl

@[simp] theorem Cursor.head_pos (items : List A) (filled : items ≠ []) :
    (head items filled).pos = 0 := rfl

@[simp] theorem Cursor.next_items (c : Cursor A) : c.next.items = c.items := rfl

@[simp] theorem Cursor.next_pos (c : Cursor A) :
    c.next.pos = (c.pos + 1) % c.items.length := rfl

theorem Cursor.ext_pos {c d : Cursor A} (items : c.items = d.items) (pos : c.pos = d.pos) :
    c = d := by
  cases c
  cases d
  cases items
  cases pos
  rfl

@[simp] theorem Cursor.iterate_items (c : Cursor A) (k : ℕ) : (next^[k] c).items = c.items := by
  induction k generalizing c with
  | zero => rfl
  | succ k ih => exact ih c.next

@[simp] theorem Cursor.iterate_pos (c : Cursor A) (k : ℕ) :
    (next^[k] c).pos = (c.pos + k) % c.items.length := by
  induction k generalizing c with
  | zero => exact (Nat.mod_eq_of_lt c.inside).symm
  | succ k ih =>
      rw [Function.iterate_succ_apply, ih, next_items, next_pos, Nat.mod_add_mod]
      congr 1
      omega

/-- Stepping off the last item leads back to the head, stepping off any other does not. -/
theorem Cursor.next_pos_eq_zero (c : Cursor A) :
    c.next.pos = 0 ↔ c.pos + 1 = c.items.length := by
  have inside := c.inside
  rw [next_pos]
  constructor
  · intro zero
    apply Decidable.byContradiction
    intro other
    rw [Nat.mod_eq_of_lt (by omega)] at zero
    omega
  · intro last
    rw [last, Nat.mod_self]

theorem Cursor.next_pos_of_lt {c : Cursor A} (more : c.pos + 1 < c.items.length) :
    c.next.pos = c.pos + 1 := Nat.mod_eq_of_lt more

/-- Subtracting `b` makes no difference modulo `n` exactly when `n` divides it. -/
theorem sub_mod_eq_iff {a b n : ℕ} (le : b ≤ a) : (a - b) % n = a % n ↔ n ∣ b := by
  constructor
  · intro same
    have := (Nat.modEq_iff_dvd' (Nat.sub_le a b)).mp same
    rwa [Nat.sub_sub_self le] at this
  · intro divides
    refine (Nat.modEq_iff_dvd' (Nat.sub_le a b)).mpr ?_
    rwa [Nat.sub_sub_self le]

end Ring
