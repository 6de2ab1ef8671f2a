import Mathlib.Data.List.Induction
import Mathlib.Data.List.Nodup
import Mathlib.Logic.Function.Basic

set_option autoImplicit false

namespace Linked

variable {P : Type}

/-- The links of a node, as pointers. -/
structure Node (P : Type) where
  prev : Option P := none
  next : Option P := none
  deriving DecidableEq

/-- A doubly linked list that does not own its nodes. -/
structure Chain (P : Type) where
  head : Option P := none
  tail : Option P := none
  deriving DecidableEq

/-- The nodes in memory; `none` where there is none. -/
abbrev Memory (P : Type) := P → Option (Node P)

/-- The nodes `items` are linked to each other, and at the ends to `prev` and `next`. -/
def Seg (mem : Memory P) : Option P → List P → Option P → Prop
  | _, [], _ => True
  | prev, n :: rest, next =>
    mem n = some ⟨prev, rest.head?.or next⟩ ∧ Seg mem (some n) rest next

/-- The list has exactly these items. Other nodes may be linked to anything. -/
structure Spells (mem : Memory P) (l : Chain P) (items : List P) : Prop where
  nodup : items.Nodup
  seg : Seg mem none items none
  head : l.head = items.head?
  tail : l.tail = items.getLast?

/-- The list has exactly these items, and no other node is linked. -/
structure Repr (mem : Memory P) (l : Chain P) (items : List P) : Prop where
  nodup : items.Nodup
  seg : Seg mem none items none
  head : l.head = items.head?
  tail : l.tail = items.getLast?
  outside : ∀ n, n ∉ items → ∀ node, mem n = some node → node = {}

theorem Spells.empty {mem : Memory P} : Spells mem {} [] :=
  ⟨List.nodup_nil, trivial, rfl, rfl⟩

theorem Repr.spells {mem : Memory P} {l : Chain P} {items : List P} (holds : Repr mem l items) :
    Spells mem l items :=
  ⟨holds.nodup, holds.seg, holds.head, holds.tail⟩

theorem Spells.repr {mem : Memory P} {l : Chain P} {items : List P} (holds : Spells mem l items)
    (outside : ∀ n, n ∉ items → ∀ node, mem n = some node → node = {}) : Repr mem l items :=
  ⟨holds.nodup, holds.seg, holds.head, holds.tail, outside⟩

theorem Repr.empty {mem : Memory P} (unlinked : ∀ n node, mem n = some node → node = {}) :
    Repr mem {} [] :=
  ⟨List.nodup_nil, trivial, rfl, rfl, fun n _ => unlinked n⟩

section Seg

variable {mem mem' : Memory P} {prev next : Option P} {items front back : List P}

theorem seg_congr (same : ∀ n ∈ items, mem' n = mem n) (seg : Seg mem prev items next) :
    Seg mem' prev items next := by
  induction items generalizing prev with
  | nil => trivial
  | cons n rest ih =>
      refine ⟨(same n List.mem_cons_self).trans seg.1, ?_⟩
      exact ih (fun m member => same m (List.mem_cons_of_mem _ member)) seg.2

theorem seg_append : Seg mem prev (front ++ back) next ↔
    Seg mem prev front (back.head?.or next) ∧ Seg mem (front.getLast?.or prev) back next := by
  induction front generalizing prev with
  | nil => simp [Seg]
  | cons n rest ih =>
      have joined : (rest ++ back).head?.or next = rest.head?.or (back.head?.or next) := by
        cases rest <;> simp
      have last : (n :: rest).getLast?.or prev = rest.getLast?.or (some n) := by
        cases rest with
        | nil => rfl
        | cons m more => simp [List.getLast?_cons]
      simp only [List.cons_append, Seg, ih, joined, last, and_assoc]

theorem seg_concat {n : P} : Seg mem prev (front ++ [n]) next ↔
    Seg mem prev front (some n) ∧ mem n = some ⟨front.getLast?.or prev, next⟩ := by
  rw [seg_append]
  simp [Seg]

end Seg

section Walk

variable {mem : Memory P} {items : List P}

/-- The nodes met from `start` on by following `link`, up to the null at the end. `none` where
a pointer dangles or `fuel` does not suffice. -/
def walk (link : Node P → Option P) (mem : Memory P) : ℕ → Option P → Option (List P)
  | _, none => some []
  | 0, some _ => none
  | fuel + 1, some n =>
    (mem n).bind fun node => (walk link mem fuel (link node)).map fun rest => n :: rest

theorem walk_next {prev : Option P} {fuel : ℕ} (seg : Seg mem prev items none)
    (enough : items.length ≤ fuel) : walk Node.next mem fuel items.head? = some items := by
  induction items generalizing prev fuel with
  | nil => cases fuel <;> rfl
  | cons n rest ih =>
      cases fuel with
      | zero => simp at enough
      | succ fuel =>
          have shorter : rest.length ≤ fuel := by simpa using enough
          have link := seg.1
          rw [Option.or_none] at link
          simp [walk, link, ih seg.2 shorter]

theorem walk_prev {next : Option P} {fuel : ℕ} (seg : Seg mem none items next)
    (enough : items.length ≤ fuel) :
    walk Node.prev mem fuel items.getLast? = some items.reverse := by
  induction items using List.reverseRecOn generalizing next fuel with
  | nil => cases fuel <;> rfl
  | append_singleton front n ih =>
      cases fuel with
      | zero => simp at enough
      | succ fuel =>
          have shorter : front.length ≤ fuel := by simpa using enough
          obtain ⟨earlier, link⟩ := seg_concat.mp seg
          rw [Option.or_none] at link
          simp [walk, link, ih earlier shorter]

end Walk

variable [DecidableEq P]

def modify (mem : Memory P) (a : P) (f : Node P → Node P) : Memory P :=
  fun b => if b = a then (mem b).map f else mem b

/-- Links a node behind the last one. `none` where a check fails or a pointer dangles. -/
def addTail (mem : Memory P) (l : Chain P) (node : P) : Option (Memory P × Chain P) :=
  match mem node with
  | none => none
  | some n =>
    if n.prev = none ∧ n.next = none then
      match l.tail with
      | some tail =>
        match mem tail with
        | none => none
        | some t =>
          if l.head ≠ none ∧ t.next = none then
            some (modify (modify mem tail fun t => { t with next := some node }) node
              fun _ => ⟨some tail, none⟩, ⟨l.head, some node⟩)
          else none
      | none =>
        if l.head = none then some (modify mem node fun _ => ⟨none, none⟩, ⟨some node, some node⟩)
        else none
    else none

/-- The half of `erase` that looks at the node before. -/
def erasePrev (mem : Memory P) (l : Chain P) (node : P) (prev next : Option P) :
    Option (Memory P × Chain P) :=
  match prev with
  | some p =>
    match mem p with
    | none => none
    | some before =>
      if l.head ≠ some node ∧ before.next = some node then
        some (modify (modify mem p fun n => { n with next := next }) node
          fun n => { n with prev := none }, l)
      else none
  | none => if l.head = some node then some (mem, { l with head := next }) else none

/-- The half of `erase` that looks at the node behind. -/
def eraseNext (mem : Memory P) (l : Chain P) (node : P) (prev next : Option P) :
    Option (Memory P × Chain P) :=
  match next with
  | some q =>
    match mem q with
    | none => none
    | some behind =>
      if l.tail ≠ some node ∧ behind.prev = some node then
        some (modify (modify mem q fun n => { n with prev := prev }) node
          fun n => { n with next := none }, l)
      else none
  | none => if l.tail = some node then some (mem, { l with tail := prev }) else none

/-- Unlinks a node. -/
def erase (mem : Memory P) (l : Chain P) (node : P) : Option (Memory P × Chain P) :=
  match mem node with
  | none => none
  | some n =>
    (erasePrev mem l node n.prev n.next).bind fun (mem, l) =>
      (eraseNext mem l node n.prev n.next).bind fun (mem, l) =>
        if l.head.isSome = l.tail.isSome then some (mem, l) else none

section Modify

variable {mem : Memory P} {prev next : Option P} {items front back : List P}

theorem modify_self (a : P) (f : Node P → Node P) : modify mem a f a = (mem a).map f := by
  simp [modify]

theorem modify_other {a b : P} (f : Node P → Node P) (other : b ≠ a) :
    modify mem a f b = mem b := by
  simp [modify, other]

theorem modify_isSome (a b : P) (f : Node P → Node P) :
    (modify mem a f b).isSome = (mem b).isSome := by
  unfold modify
  split <;> simp

/-- Only the last node knows what comes behind. -/
theorem seg_setNext {n : P} (fresh : n ∉ front) (next' : Option P)
    (seg : Seg mem prev (front ++ [n]) next) :
    Seg (modify mem n fun node => { node with next := next' }) prev (front ++ [n]) next' := by
  rw [seg_concat] at seg ⊢
  refine ⟨seg_congr (fun m member => modify_other _ ?_) seg.1, ?_⟩
  · rintro rfl
    exact fresh member
  · rw [modify_self, seg.2]
    rfl

/-- Only the first node knows what comes before. -/
theorem seg_setPrev {n : P} (fresh : n ∉ back) (prev' : Option P)
    (seg : Seg mem prev (n :: back) next) :
    Seg (modify mem n fun node => { node with prev := prev' }) prev' (n :: back) next := by
  refine ⟨?_, seg_congr (fun m member => modify_other _ ?_) seg.2⟩
  · rw [modify_self, seg.1]
    rfl
  · rintro rfl
    exact fresh member

theorem seg_modify {n : P} (f : Node P → Node P) (fresh : n ∉ items)
    (seg : Seg mem prev items next) : Seg (modify mem n f) prev items next := by
  refine seg_congr (fun m member => modify_other f ?_) seg
  rintro rfl
  exact fresh member

end Modify

variable {mem : Memory P} {l : Chain P} {items : List P}

/-- A node with null links that is not in the list can be linked behind the last one. -/
theorem addTail_spells {n : P} (holds : Spells mem l items) (fresh : n ∉ items)
    (found : mem n = some {}) :
    ∃ mem' l', addTail mem l n = some (mem', l') ∧ Spells mem' l' (items ++ [n]) ∧
      (∀ m, m ∉ items ++ [n] → mem' m = mem m) ∧
      ∀ m, (mem' m).isSome = (mem m).isSome := by
  have nodup : (items ++ [n]).Nodup := by
    rw [List.nodup_append_comm]
    exact List.nodup_cons.mpr ⟨fresh, holds.nodup⟩
  rcases List.eq_nil_or_concat' items with rfl | ⟨front, last, rfl⟩
  · have tail : l.tail = none := holds.tail
    have head : l.head = none := holds.head
    refine ⟨modify mem n fun _ => ⟨none, none⟩, ⟨some n, some n⟩, ?_, ?_, ?_, ?_⟩
    · simp [addTail, found, tail, head]
    · refine ⟨nodup, ⟨?_, trivial⟩, rfl, rfl⟩
      simp [modify_self, found]
    · intro m other
      have other : m ≠ n := by simpa using other
      exact modify_other _ other
    · exact fun m => modify_isSome _ _ _
  · have apart : n ≠ last := by
      rintro rfl
      exact fresh (by simp)
    have new : last ∉ front := by
      have nodup := holds.nodup
      rw [List.nodup_append_comm] at nodup
      exact (List.nodup_cons.mp nodup).1
    have tail : l.tail = some last := by simpa using holds.tail
    have head : l.head ≠ none := by
      rw [holds.head]
      cases front <;> simp
    have link := (seg_concat.mp holds.seg).2
    have longer := seg_setNext new (some n) holds.seg
    refine ⟨modify (modify mem last fun t => { t with next := some n }) n
      fun _ => ⟨some last, none⟩, ⟨l.head, some n⟩, ?_, ?_, ?_, ?_⟩
    · simp [addTail, found, tail, link, head]
    · refine ⟨nodup, seg_concat.mpr ⟨seg_modify _ fresh longer, ?_⟩, ?_, by simp⟩
      · rw [modify_self, modify_other _ apart, found]
        simp
      · rw [holds.head]
        cases front <;> simp
    · intro m other
      simp only [List.mem_append, List.mem_singleton, not_or] at other
      rw [modify_other _ other.2, modify_other _ other.1.2]
    · intro m
      rw [modify_isSome, modify_isSome]

/-- A node that is in memory and not in the list can be linked behind the last one. -/
theorem addTail_spec {n : P} (holds : Repr mem l items) (fresh : n ∉ items)
    (inside : (mem n).isSome = true) :
    ∃ mem' l', addTail mem l n = some (mem', l') ∧ Repr mem' l' (items ++ [n]) ∧
      ∀ m, (mem' m).isSome = (mem m).isSome := by
  obtain ⟨node, found⟩ := Option.isSome_iff_exists.mp inside
  have unlinked := holds.outside n fresh node found
  subst unlinked
  obtain ⟨mem', l', linked, spells, outside, isSome⟩ := addTail_spells holds.spells fresh found
  refine ⟨mem', l', linked, spells.repr fun m other node found' => ?_, isSome⟩
  rw [outside m other] at found'
  refine holds.outside m (fun member => ?_) node found'
  exact other (List.mem_append_left _ member)

/-- Nodes that are not in the list may come and go. -/
theorem Repr.update {n : P} {cell : Option (Node P)} (holds : Repr mem l items) (fresh : n ∉ items)
    (unlinked : ∀ node, cell = some node → node = {}) :
    Repr (Function.update mem n cell) l items := by
  refine ⟨holds.nodup, seg_congr (fun m member => ?_) holds.seg, holds.head, holds.tail, ?_⟩
  · have other : m ≠ n := by
      rintro rfl
      exact fresh member
    rw [Function.update_of_ne other]
  · intro m other node found
    by_cases same : m = n
    · subst same
      rw [Function.update_self] at found
      exact unlinked node found
    · rw [Function.update_of_ne same] at found
      exact holds.outside m other node found

section Erase

variable {front back : List P} {n : P}

/-- The nodes around one that is being unlinked: those before know what comes behind it. -/
structure Opened (mem mem' : Memory P) (l l' : Chain P) (front : List P) (n : P) (back : List P) :
    Prop where
  before : Seg mem' none front back.head?
  behind : Seg mem' (some n) back none
  node : mem' n = some ⟨none, back.head?⟩
  head : l'.head = (front ++ back).head?
  tail : l'.tail = l.tail
  outside : ∀ m, m ∉ front ++ n :: back → mem' m = mem m
  isSome : ∀ m, (mem' m).isSome = (mem m).isSome

theorem erasePrev_spec (holds : Spells mem l (front ++ n :: back)) :
    ∃ mem' l', erasePrev mem l n front.getLast? back.head? = some (mem', l') ∧
      Opened mem mem' l l' front n back := by
  have nodup := holds.nodup
  obtain ⟨before, link, behind⟩ := seg_append.mp holds.seg
  simp only [List.head?_cons, Option.or_none] at before link
  rcases List.eq_nil_or_concat' front with rfl | ⟨earlier, p, rfl⟩
  · have head : l.head = some n := holds.head
    exact ⟨mem, { l with head := back.head? }, by simp [erasePrev, head],
      trivial, behind, link, rfl, rfl, fun _ _ => rfl, fun _ => rfl⟩
  · have split : earlier ++ [p] ++ n :: back = earlier ++ p :: n :: back := by simp
    rw [split, List.nodup_middle, List.nodup_cons] at nodup
    have apart : n ≠ p := by
      rintro rfl
      exact nodup.1 (by simp)
    have new : p ∉ earlier := fun member => nodup.1 (by simp [member])
    have newer : p ∉ back := fun member => nodup.1 (by simp [member])
    have own : n ∉ earlier ++ [p] ∧ n ∉ back := by
      have whole := holds.nodup
      rw [List.nodup_middle, List.nodup_cons] at whole
      exact ⟨fun member => whole.1 (List.mem_append_left _ member),
        fun member => whole.1 (List.mem_append_right _ member)⟩
    have head : l.head ≠ some n := by
      rw [holds.head]
      cases earlier with
      | nil => simpa using Ne.symm apart
      | cons first rest =>
          rintro ⟨⟩
          exact own.1 (by simp)
    have linkP := (seg_concat.mp before).2
    refine ⟨modify (modify mem p fun m => { m with next := back.head? }) n
      fun m => { m with prev := none }, l, ?_, ?_⟩
    · simp [erasePrev, linkP, head]
    · refine ⟨seg_modify _ own.1 (seg_setNext new _ before),
        seg_modify _ own.2 (seg_modify _ newer behind), ?_, ?_, rfl, ?_, ?_⟩
      · rw [modify_self, modify_other _ apart, link]
        rfl
      · rw [holds.head]
        cases earlier <;> simp
      · intro m other
        simp only [List.mem_append, List.mem_cons, List.not_mem_nil, or_false, not_or] at other
        rw [modify_other _ other.2.1, modify_other _ other.1.2]
      · intro m
        rw [modify_isSome, modify_isSome]

theorem eraseNext_spec {mem' : Memory P} {l' : Chain P} (holds : Spells mem l (front ++ n :: back))
    (opened : Opened mem mem' l l' front n back) :
    ∃ mem'' l'', eraseNext mem' l' n front.getLast? back.head? = some (mem'', l'') ∧
      Spells mem'' l'' (front ++ back) ∧ mem'' n = some {} ∧
      (∀ m, m ∉ front ++ n :: back → mem'' m = mem m) ∧
      ∀ m, (mem'' m).isSome = (mem m).isSome := by
  have nodup := holds.nodup
  rw [List.nodup_middle, List.nodup_cons] at nodup
  have own : n ∉ front ∧ n ∉ back := by simpa using nodup.1
  have link := opened.node
  cases back with
  | nil =>
      have tail : l'.tail = some n := by
        rw [opened.tail, holds.tail]
        simp
      refine ⟨mem', { l' with tail := front.getLast? }, by simp [eraseNext, tail], ?_, link,
        opened.outside, opened.isSome⟩
      refine ⟨nodup.2, ?_, opened.head, by simp⟩
      simpa using opened.before
  | cons q rest =>
      have apart : n ≠ q := by
        rintro rfl
        exact own.2 (by simp)
      have parts := nodup.2
      rw [List.nodup_middle, List.nodup_cons] at parts
      have new : q ∉ front ∧ q ∉ rest := by simpa using parts.1
      have tail : l'.tail ≠ some n := by
        rw [opened.tail, holds.tail, List.getLast?_append]
        simp only [List.getLast?_cons_cons]
        rw [List.getLast?_eq_some_getLast (by simp)]
        intro same
        refine own.2 ?_
        rw [← Option.some.inj same]
        exact List.getLast_mem _
      have linkQ := opened.behind.1
      refine ⟨modify (modify mem' q fun m => { m with prev := front.getLast? }) n
        fun m => { m with next := none }, l', ?_, ?_, ?_, ?_, ?_⟩
      · simp [eraseNext, linkQ, tail]
      · refine ⟨nodup.2, seg_append.mpr ⟨?_, ?_⟩, opened.head, ?_⟩
        · exact seg_modify _ own.1 (seg_modify _ new.1 opened.before)
        · have shorter := seg_setPrev new.2 (front.getLast?.or none) opened.behind
          rw [Option.or_none] at shorter ⊢
          exact seg_modify _ own.2 shorter
        · rw [opened.tail, holds.tail]
          simp [List.getLast?_append, List.getLast?_cons]
      · rw [modify_self, modify_other _ apart, link]
        rfl
      · intro m other
        have unlisted := other
        simp only [List.mem_append, List.mem_cons, not_or] at other
        rw [modify_other _ other.2.1, modify_other _ other.2.2.1, opened.outside m unlisted]
      · intro m
        rw [modify_isSome, modify_isSome, opened.isSome]

/-- A node of the list can be unlinked. Its own links are null again. -/
theorem erase_spells (holds : Spells mem l (front ++ n :: back)) :
    ∃ mem' l', erase mem l n = some (mem', l') ∧ Spells mem' l' (front ++ back) ∧
      mem' n = some {} ∧ (∀ m, m ∉ front ++ n :: back → mem' m = mem m) ∧
      ∀ m, (mem' m).isSome = (mem m).isSome := by
  obtain ⟨_, link, _⟩ := seg_append.mp holds.seg
  obtain ⟨mem', l', first, opened⟩ := erasePrev_spec holds
  obtain ⟨mem'', l'', second, closed, unlinked, outside, isSome⟩ := eraseNext_spec holds opened
  refine ⟨mem'', l'', ?_, closed, unlinked, outside, isSome⟩
  have ends : l''.head.isSome = l''.tail.isSome := by
    rw [closed.head, closed.tail]
    cases front ++ back <;> simp [List.getLast?_cons]
  simp only [Option.or_none] at link
  simp only [erase, link, first, second, Option.bind_some, ends, ↓reduceIte]

theorem erase_spec (holds : Repr mem l (front ++ n :: back)) :
    ∃ mem' l', erase mem l n = some (mem', l') ∧ Repr mem' l' (front ++ back) ∧
      ∀ m, (mem' m).isSome = (mem m).isSome := by
  obtain ⟨mem', l', erased, spells, unlinked, outside, isSome⟩ := erase_spells holds.spells
  refine ⟨mem', l', erased, spells.repr fun m other node found => ?_, isSome⟩
  by_cases same : m = n
  · subst same
    rw [unlinked] at found
    cases found
    rfl
  · have unlisted : m ∉ front ++ n :: back := by simpa [same] using other
    rw [outside m unlisted] at found
    exact holds.outside m unlisted node found

end Erase

end Linked
