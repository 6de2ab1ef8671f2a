import Mathlib.Data.List.Basic

set_option autoImplicit false

namespace Threads

variable {α : Type}

/-- What a collection of threads (or of any other items) adds up to under a weight. -/
def total (f : α → Nat) : List α → Nat
  | [] => 0
  | x :: items => f x + total f items

@[simp] theorem total_nil (f : α → Nat) : total f [] = 0 := rfl

@[simp] theorem total_cons (f : α → Nat) (x : α) (items : List α) :
    total f (x :: items) = f x + total f items := rfl

@[simp] theorem total_append (f : α → Nat) (front back : List α) :
    total f (front ++ back) = total f front + total f back := by
  induction front with
  | nil => simp
  | cons x front ih =>
      simp only [List.cons_append, total_cons, ih]
      omega

/-- Threads that are all alike. -/
@[simp] theorem total_replicate (f : α → Nat) (n : Nat) (x : α) :
    total f (List.replicate n x) = n * f x := by
  induction n with
  | zero => simp
  | succ n ih =>
      rw [List.replicate_succ, total_cons, ih, Nat.succ_mul]
      omega

/-- One thread moves on and the others stay where they are. -/
theorem total_set (f : α → Nat) {items : List α} {i : Nat} {x : α} (y : α)
    (found : items[i]? = some x) :
    total f (items.set i y) + f x = total f items + f y := by
  induction items generalizing i with
  | nil => simp at found
  | cons head rest ih =>
      cases i with
      | zero =>
          simp only [List.getElem?_cons_zero, Option.some.injEq] at found
          subst found
          simp only [List.set_cons_zero, total_cons]
          omega
      | succ i =>
          simp only [List.getElem?_cons_succ] at found
          have := ih found
          simp only [List.set_cons_succ, total_cons]
          omega

theorem total_eraseIdx (f : α → Nat) {items : List α} {i : Nat} {x : α}
    (found : items[i]? = some x) :
    total f (items.eraseIdx i) + f x = total f items := by
  induction items generalizing i with
  | nil => simp at found
  | cons head rest ih =>
      cases i with
      | zero =>
          simp only [List.getElem?_cons_zero, Option.some.injEq] at found
          subst found
          simp only [List.eraseIdx_cons_zero, total_cons]
          omega
      | succ i =>
          simp only [List.getElem?_cons_succ] at found
          have := ih found
          simp only [List.eraseIdx_cons_succ, total_cons]
          omega

theorem weight_le_total (f : α → Nat) {items : List α} {x : α} (member : x ∈ items) :
    f x ≤ total f items := by
  induction items with
  | nil => cases member
  | cons head rest ih =>
      simp only [total_cons]
      rcases List.mem_cons.mp member with rfl | member
      · omega
      · have := ih member
        omega

theorem total_add_le {f g h : α → Nat} (bound : ∀ x, f x + g x ≤ h x) (items : List α) :
    total f items + total g items ≤ total h items := by
  induction items with
  | nil => simp
  | cons head rest ih =>
      have := bound head
      simp only [total_cons]
      omega

theorem total_le_total {f g : α → Nat} {items : List α} (bound : ∀ x ∈ items, f x ≤ g x) :
    total f items ≤ total g items := by
  induction items with
  | nil => exact Nat.le_refl 0
  | cons head rest ih =>
      have first := bound head List.mem_cons_self
      have others := ih fun x member => bound x (List.mem_cons_of_mem head member)
      simp only [total_cons]
      omega

/-- One thread moves on, and the weights of the others do not grow. -/
theorem total_set_le {f g : α → Nat} {items : List α} {i : Nat} {x : α} (y : α)
    (found : items[i]? = some x) (others : ∀ z ∈ items.eraseIdx i, g z ≤ f z) :
    total g (items.set i y) + f x ≤ total f items + g y := by
  have moved := total_set g y found
  have after := total_eraseIdx g found
  have before := total_eraseIdx f found
  have rest := total_le_total others
  omega

/-- The order does not matter. -/
theorem total_perm (f : α → Nat) {items others : List α} (perm : items.Perm others) :
    total f items = total f others := by
  induction perm with
  | nil => rfl
  | cons x _ ih => rw [total_cons, total_cons, ih]
  | swap x y rest =>
      simp only [total_cons]
      omega
  | trans _ _ first second => exact first.trans second

theorem total_eq_zero {f : α → Nat} {items : List α} :
    total f items = 0 ↔ ∀ x ∈ items, f x = 0 := by
  induction items with
  | nil => simp
  | cons head rest ih => simp [ih]

theorem exists_of_total_pos {f : α → Nat} {items : List α} (positive : 0 < total f items) :
    ∃ x ∈ items, 0 < f x := by
  apply Decidable.byContradiction
  intro none
  have zero : total f items = 0 := by
    apply total_eq_zero.mpr
    intro x member
    apply Nat.eq_zero_of_not_pos
    exact fun pos => none ⟨x, member, pos⟩
  omega

/-- A thread of an extended collection was there before or is the new one. -/
theorem of_getElem?_snoc {items : List α} {i : Nat} {x y : α}
    (found : (items ++ [x])[i]? = some y) :
    i < items.length ∧ items[i]? = some y ∨ i = items.length ∧ y = x := by
  by_cases inside : i < items.length
  · rw [List.getElem?_append_left inside] at found
    exact Or.inl ⟨inside, found⟩
  · rw [List.getElem?_append_right (Nat.le_of_not_lt inside)] at found
    obtain ⟨last, same⟩ := List.getElem?_eq_some_iff.mp found
    simp only [List.length_singleton] at last
    simp only [List.getElem_singleton] at same
    exact Or.inr ⟨by omega, same.symm⟩

/-- Every thread of the new collection is the one that moved or was there before. -/
theorem mem_set {items : List α} {i : Nat} {y z : α} (member : z ∈ items.set i y) :
    z = y ∨ z ∈ items := (List.mem_or_eq_of_mem_set member).symm

/-- Every thread of the new collection is the one that moved or one of the others. -/
theorem mem_set_other {items : List α} {i : Nat} {y z : α} (member : z ∈ items.set i y) :
    z = y ∨ z ∈ items.eraseIdx i := by
  induction items generalizing i with
  | nil => cases member
  | cons head rest ih =>
      cases i with
      | zero => simpa using member
      | succ i =>
          rcases List.mem_cons.mp member with rfl | member
          · exact Or.inr (by simp)
          · rcases ih member with same | other
            · exact Or.inl same
            · exact Or.inr (by simp [other])

/-- Every thread that was there before is the one that moved or is still there. -/
theorem mem_set_of_mem {items : List α} {i : Nat} {x : α} (y : α) {z : α}
    (found : items[i]? = some x) (member : z ∈ items) : z = x ∨ z ∈ items.set i y := by
  induction items generalizing i with
  | nil => cases member
  | cons head rest ih =>
      cases i with
      | zero =>
          simp only [List.getElem?_cons_zero, Option.some.injEq] at found
          subst found
          rcases List.mem_cons.mp member with rfl | member
          · exact Or.inl rfl
          · exact Or.inr (by simp [member])
      | succ i =>
          simp only [List.getElem?_cons_succ] at found
          rcases List.mem_cons.mp member with rfl | member
          · exact Or.inr (by simp)
          · rcases ih found member with same | kept
            · exact Or.inl same
            · exact Or.inr (by simp [kept])

/-- The moved thread is in the new collection. -/
theorem mem_set_self {items : List α} {i : Nat} {x : α} (y : α)
    (found : items[i]? = some x) : y ∈ items.set i y := by
  obtain ⟨inside, _⟩ := List.getElem?_eq_some_iff.mp found
  exact List.mem_iff_getElem?.mpr ⟨i, by simp [inside]⟩

/-- Of the threads that each have a slot of their own there are no more than slots. -/
theorem countP_le_length {β : Type} [DecidableEq β] {p : α → Bool} {items : List α} {slots : List β}
    (slot : Nat → β) (own : ∀ i j, slot i = slot j → i = j)
    (placed : ∀ (i : Nat) (x : α), items[i]? = some x → p x = true → slot i ∈ slots) :
    items.countP p ≤ slots.length := by
  induction items generalizing slot slots with
  | nil => simp
  | cons head rest ih =>
      have others : ∀ i j, slot (i + 1) = slot (j + 1) → i = j := by
        intro i j same
        have := own _ _ same
        omega
      by_cases holds : p head = true
      · have first := placed 0 head rfl holds
        have tail := @ih (slots.erase (slot 0)) (fun i => slot (i + 1)) others ?_
        · rw [List.length_erase_of_mem first] at tail
          have positive := List.length_pos_of_mem first
          rw [List.countP_cons_of_pos holds]
          omega
        · intro i x found chosen
          have member := placed (i + 1) x found chosen
          apply (List.mem_erase_of_ne _).mpr member
          intro same
          have := own _ _ same
          omega
      · rw [List.countP_cons_of_neg holds]
        exact ih (fun i => slot (i + 1)) others fun i x found chosen => placed (i + 1) x found chosen

end Threads
