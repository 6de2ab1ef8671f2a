import Mathlib.Data.Multiset.AddSub
import Mathlib.Data.Multiset.UnionInter
import Mathlib.Logic.Function.Basic

set_option autoImplicit false

namespace Ownership

section Owned

variable {X O : Type} {held held' : O → Multiset X} {there there' : X → Prop}

/-- Each thing that is there has one owner, which has it once. -/
structure Owned (held : O → Multiset X) (there : X → Prop) : Prop where
  nodup : ∀ o, (held o).Nodup
  unique : ∀ {o p x}, x ∈ held o → x ∈ held p → o = p
  covers : ∀ x, there x ↔ ∃ o, x ∈ held o

theorem Owned.of_mem (owned : Owned held there) {o : O} {x : X} (member : x ∈ held o) : there x :=
  (owned.covers x).mpr ⟨o, member⟩

theorem Owned.congr (owned : Owned held there) (same : ∀ o, held' o = held o)
    (still : ∀ x, there' x ↔ there x) : Owned held' there' := by
  obtain rfl : held' = held := funext same
  exact ⟨owned.nodup, owned.unique, fun x => (still x).trans (owned.covers x)⟩

theorem Owned.empty (nobody : ∀ o, held o = 0) (nothing : ∀ x, ¬ there x) : Owned held there := by
  have none : ∀ {o x}, x ∉ held o := by
    intro o x member
    rw [nobody o] at member
    exact Multiset.notMem_zero x member
  refine ⟨?_, fun member _ => absurd member none, ?_⟩
  · intro o
    rw [nobody o]
    exact Multiset.nodup_zero
  · intro x
    exact ⟨fun present => absurd present (nothing x), fun ⟨_, member⟩ => absurd member none⟩

/-- Things that were not there get an owner. -/
theorem Owned.receive (owned : Owned held there) {b : O} {xs : Multiset X} (nodup : xs.Nodup)
    (fresh : ∀ x ∈ xs, ¬ there x) (taken : held' b = xs + held b)
    (others : ∀ o, o ≠ b → held' o = held o) (more : ∀ y, there' y ↔ y ∈ xs ∨ there y) :
    Owned held' there' := by
  have free : ∀ {o x}, x ∈ xs → x ∉ held o :=
    fun inside member => fresh _ inside (owned.of_mem member)
  have received : ∀ {o y}, y ∈ held' o ↔ y ∈ xs ∧ o = b ∨ y ∈ held o := by
    intro o y
    by_cases target : o = b
    · subst target
      rw [taken, Multiset.mem_add]
      simp
    · rw [others o target]
      simp [target]
  refine ⟨?_, ?_, ?_⟩
  · intro o
    by_cases target : o = b
    · subst target
      rw [taken]
      exact Multiset.nodup_add.mpr ⟨nodup, owned.nodup o, Multiset.disjoint_left.mpr free⟩
    · rw [others o target]
      exact owned.nodup o
  · intro o p y first second
    rcases received.mp first with ⟨inside, rfl⟩ | first
    · rcases received.mp second with ⟨_, rfl⟩ | second
      · rfl
      · exact absurd second (free inside)
    · rcases received.mp second with ⟨inside, _⟩ | second
      · exact absurd first (free inside)
      · exact owned.unique first second
  · intro y
    rw [more, owned.covers]
    constructor
    · rintro (inside | ⟨o, member⟩)
      · exact ⟨b, received.mpr (.inl ⟨inside, rfl⟩)⟩
      · exact ⟨o, received.mpr (.inr member)⟩
    · rintro ⟨o, member⟩
      rcases received.mp member with ⟨inside, _⟩ | member
      · exact .inl inside
      · exact .inr ⟨o, member⟩

/-- Things go away, and with them their owner's claim to them. -/
theorem Owned.lose (owned : Owned held there) {a : O} {xs : Multiset X}
    (given : held a = xs + held' a) (others : ∀ o, o ≠ a → held' o = held o)
    (fewer : ∀ y, there' y ↔ there y ∧ y ∉ xs) : Owned held' there' := by
  have split : (xs + held' a).Nodup := given ▸ owned.nodup a
  have before : ∀ {x}, x ∈ xs → x ∈ held a := by
    intro x inside
    rw [given]
    exact Multiset.mem_add.mpr (.inl inside)
  have left : ∀ {o y}, y ∈ held' o ↔ y ∈ held o ∧ y ∉ xs := by
    intro o y
    by_cases source : o = a
    · subst source
      rw [given, Multiset.mem_add]
      constructor
      · intro member
        refine ⟨.inr member, fun inside => ?_⟩
        exact Multiset.disjoint_left.mp (Multiset.nodup_add.mp split).2.2 inside member
      · exact fun ⟨member, outside⟩ => member.resolve_left outside
    · rw [others o source]
      refine ⟨fun member => ⟨member, fun inside => ?_⟩, And.left⟩
      exact source (owned.unique member (before inside))
  refine ⟨?_, fun first second => owned.unique (left.mp first).1 (left.mp second).1, ?_⟩
  · intro o
    by_cases source : o = a
    · subst source
      exact (Multiset.nodup_add.mp split).2.1
    · rw [others o source]
      exact owned.nodup o
  · intro y
    rw [fewer, owned.covers]
    constructor
    · rintro ⟨⟨o, member⟩, outside⟩
      exact ⟨o, left.mpr ⟨member, outside⟩⟩
    · rintro ⟨o, member⟩
      obtain ⟨member, outside⟩ := left.mp member
      exact ⟨⟨o, member⟩, outside⟩

/-- One owner gives some of what it has to another one. -/
theorem Owned.move (owned : Owned held there) {a b : O} (different : a ≠ b) (xs : Multiset X)
    (given : held a = xs + held' a) (taken : held' b = xs + held b)
    (others : ∀ o, o ≠ a → o ≠ b → held' o = held o) : Owned held' there := by
  classical
  have without : Owned (Function.update held a (held' a)) (fun y => there y ∧ y ∉ xs) := by
    refine owned.lose (a := a) ?_ (fun o source => Function.update_of_ne source _ _) fun _ => Iff.rfl
    rw [Function.update_self]
    exact given
  have nodup : xs.Nodup := (Multiset.nodup_add.mp (given ▸ owned.nodup a)).1
  refine without.receive (b := b) nodup (fun x inside gone => gone.2 inside) ?_ ?_ ?_
  · rw [Function.update_of_ne different.symm]
    exact taken
  · intro o target
    by_cases source : o = a
    · subst source
      rw [Function.update_self]
    · rw [Function.update_of_ne source, others o source target]
  · intro y
    by_cases inside : y ∈ xs
    · have member : y ∈ held a := by
        rw [given]
        exact Multiset.mem_add.mpr (.inl inside)
      simp [inside, owned.of_mem member]
    · simp [inside]

/-- One owner gives a thing to each of two other ones. -/
theorem Owned.share (owned : Owned held there) {a b c : O} (first : a ≠ b) (second : a ≠ c)
    (different : b ≠ c) {x y : X} (given : held a = x ::ₘ y ::ₘ held' a)
    (takesFirst : held' b = x ::ₘ held b) (takesSecond : held' c = y ::ₘ held c)
    (others : ∀ o, o ≠ a → o ≠ b → o ≠ c → held' o = held o) : Owned held' there := by
  classical
  have middle : Owned (Function.update (Function.update held a (y ::ₘ held' a)) b (held' b))
      there := by
    refine owned.move first {x} ?_ ?_ ?_
    · rw [Function.update_of_ne first, Function.update_self, Multiset.singleton_add]
      exact given
    · rw [Function.update_self, Multiset.singleton_add]
      exact takesFirst
    · intro o source target
      rw [Function.update_of_ne target, Function.update_of_ne source]
  refine middle.move second {y} ?_ ?_ ?_
  · rw [Function.update_of_ne first, Function.update_self, Multiset.singleton_add]
  · rw [takesSecond, Function.update_of_ne different.symm, Function.update_of_ne second.symm,
      Multiset.singleton_add]
  · intro o source target
    by_cases taker : o = b
    · subst taker
      rw [Function.update_self]
    · rw [Function.update_of_ne taker, Function.update_of_ne source, others o source taker target]

/-- A thing that was not there gets an owner. -/
theorem Owned.gain (owned : Owned held there) {b : O} {x : X} (fresh : ¬ there x)
    (taken : held' b = x ::ₘ held b) (others : ∀ o, o ≠ b → held' o = held o)
    (more : ∀ y, there' y ↔ y = x ∨ there y) : Owned held' there' := by
  refine owned.receive (b := b) (Multiset.nodup_singleton x) ?_ ?_ others ?_
  · intro y same
    rwa [Multiset.mem_singleton.mp same]
  · rw [Multiset.singleton_add]
    exact taken
  · intro y
    rw [more, Multiset.mem_singleton]

/-- A thing goes away, and with it its owner's claim to it. -/
theorem Owned.drop (owned : Owned held there) {a : O} {x : X} (given : held a = x ::ₘ held' a)
    (others : ∀ o, o ≠ a → held' o = held o) (fewer : ∀ y, there' y ↔ there y ∧ y ≠ x) :
    Owned held' there' := by
  have single : held a = {x} + held' a := by
    rw [Multiset.singleton_add]
    exact given
  refine owned.lose single others fun y => ?_
  rw [fewer, Multiset.mem_singleton]

/-- A thing goes away, and another one comes for it. -/
theorem Owned.exchange [DecidableEq O] (owned : Owned held there) {a b : O} {x y : X}
    (rest : Multiset X) (fresh : ¬ there y) (given : held a = x ::ₘ rest)
    (taken : held' b = y ::ₘ Function.update held a rest b)
    (others : ∀ o, o ≠ b → held' o = Function.update held a rest o)
    (now : ∀ z, there' z ↔ z = y ∨ there z ∧ z ≠ x) : Owned held' there' := by
  have without : Owned (Function.update held a rest) (fun z => there z ∧ z ≠ x) := by
    apply owned.drop (a := a) (x := x)
    · rw [Function.update_self]
      exact given
    · exact fun o source => Function.update_of_ne source _ _
    · exact fun _ => Iff.rfl
  exact without.gain (fun both => fresh both.1) taken others now

/-- Some things go away. -/
theorem Owned.filter (owned : Owned held there) (p : X → Prop) [DecidablePred p] :
    Owned (fun o => (held o).filter p) (fun x => there x ∧ p x) := by
  refine ⟨fun o => (owned.nodup o).filter p, ?_, ?_⟩
  · intro o q x first second
    exact owned.unique (Multiset.mem_filter.mp first).1 (Multiset.mem_filter.mp second).1
  · intro x
    rw [owned.covers x]
    constructor
    · rintro ⟨⟨o, member⟩, stays⟩
      exact ⟨o, Multiset.mem_filter.mpr ⟨member, stays⟩⟩
    · rintro ⟨o, member⟩
      obtain ⟨member, stays⟩ := Multiset.mem_filter.mp member
      exact ⟨⟨o, member⟩, stays⟩

end Owned

section Queues

variable {L F X : Type} [DecidableEq L] {queues : L → List F} {l : L} (xs : F → List X)

/-- A message takes what it is about to its queue. -/
theorem queue_push (f : F) :
    (((Function.update queues l (queues l ++ [f]) l).flatMap xs : List X) : Multiset X) =
      xs f + ((queues l).flatMap xs : List X) := by
  rw [Function.update_self, List.flatMap_append, List.flatMap_singleton, ← Multiset.coe_add]
  exact Multiset.add_comm _ _

theorem queue_pop {f : F} {rest : List F} (queue : queues l = f :: rest) :
    (((queues l).flatMap xs : List X) : Multiset X) =
      xs f + ((Function.update queues l rest l).flatMap xs : List X) := by
  rw [Function.update_self, queue, List.flatMap_cons, ← Multiset.coe_add]

theorem queue_other {m : L} (other : m ≠ l) (queue : List F) :
    (((Function.update queues l queue m).flatMap xs : List X) : Multiset X) =
      ((queues m).flatMap xs : List X) := by
  rw [Function.update_of_ne other]

end Queues

section Uses

variable {K L : Type} [DecidableEq K]

/-- A log of uses of handles, the last of which may close a handle: `closed` tells which are closed
before, and `after` which are closed then. No handle is used that is closed. -/
def Uses (closed : K → Bool) : List (K × Bool) → (K → Bool) → Prop
  | [], after => after = closed
  | (k, closes) :: rest, after =>
    closed k = false ∧ Uses (Function.update closed k closes) rest after

theorem Uses.refl (closed : K → Bool) : Uses closed [] closed := rfl

theorem Uses.append {closed middle after : K → Bool} {first second : List (K × Bool)}
    (before : Uses closed first middle) (behind : Uses middle second after) :
    Uses closed (first ++ second) after := by
  induction first generalizing closed with
  | nil =>
      obtain rfl : middle = closed := before
      exact behind
  | cons entry rest ih => exact ⟨before.1, ih before.2⟩

theorem Uses.use {closed : K → Bool} {k : K} (isOpen : closed k = false) :
    Uses closed [(k, false)] closed := by
  refine ⟨isOpen, ?_⟩
  rw [← isOpen, Function.update_eq_self]
  exact .refl closed

theorem Uses.close {closed : K → Bool} {k : K} (isOpen : closed k = false) :
    Uses closed [(k, true)] (Function.update closed k true) :=
  ⟨isOpen, .refl _⟩

/-- What is closed is not opened again. -/
theorem Uses.still {closed after : K → Bool} {log : List (K × Bool)} (uses : Uses closed log after)
    {k : K} (gone : closed k = true) : after k = true := by
  induction log generalizing closed with
  | nil =>
      obtain rfl : after = closed := uses
      exact gone
  | cons entry rest ih =>
      refine ih uses.2 ?_
      have different : k ≠ entry.1 := by
        rintro rfl
        rw [uses.1] at gone
        cases gone
      rwa [Function.update_of_ne different]

/-- The handles may be some of those of a larger system. -/
theorem Uses.embed [DecidableEq L] {closed after : K → Bool} {log : List (K × Bool)} {f : K → L}
    (injective : Function.Injective f) (uses : Uses closed log after) {all then_ : L → Bool}
    (before : ∀ k, all (f k) = closed k) (behind : ∀ k, then_ (f k) = after k)
    (others : ∀ l, (∀ k, l ≠ f k) → then_ l = all l) :
    Uses all (log.map fun entry => (f entry.1, entry.2)) then_ := by
  induction log generalizing closed all with
  | nil =>
      obtain rfl : after = closed := uses
      funext l
      by_cases inside : ∃ k, l = f k
      · obtain ⟨k, rfl⟩ := inside
        rw [before, behind]
      · exact others l (not_exists.mp inside)
  | cons entry rest ih =>
      obtain ⟨k, closes⟩ := entry
      refine ⟨(before k).trans uses.1, ih uses.2 ?_ ?_⟩
      · intro j
        by_cases same : j = k
        · subst same
          rw [Function.update_self, Function.update_self]
        · rw [Function.update_of_ne same, Function.update_of_ne (injective.ne same), before]
      · intro l outside
        rw [Function.update_of_ne (outside k), others l outside]

end Uses

end Ownership
