import Hcproxy.DnsAnswers
import Mathlib.Data.List.Nodup

set_option autoImplicit false

namespace Hcproxy.Dns

open Ring (Cursor)

/-- What the code uses of an `addrinfo`. -/
structure AddrInfo (P A : Type) where
  ai_addr : A
  ai_next : Option P := none
  deriving DecidableEq

/-- The results of `getaddrinfo` in memory; `none` where there is none. -/
abbrev Heap (P A : Type) := P → Option (AddrInfo P A)

variable {P A : Type}

/-- The items are linked to each other, the last one to `last`. -/
def Listed (heap : Heap P A) (last : Option P) : List P → Prop
  | [] => True
  | p :: rest => (∃ ai_addr, heap p = some ⟨ai_addr, rest.head?.or last⟩) ∧ Listed heap last rest

/-- `for (addrinfo* tail = res;; tail = tail->ai_next)`, up to the entry without a next one. -/
def findTail (heap : Heap P A) : (fuel : ℕ) → P → Option P
  | 0, _ => none
  | fuel + 1, tail =>
    (heap tail).bind fun info =>
      match info.ai_next with
      | some next => findTail heap fuel next
      | none => some tail

/-- `Advance(p)`: what it returns and what it leaves in `p`. `none` where `p` dangles. -/
def advancePointer (heap : Heap P A) : Option P → Option (Option P × Option P)
  | none => some (none, none)
  | some p => (heap p).map fun info => (some p, info.ai_next)

/-- What `count` calls of `Advance(p)` return, and what they leave in `p`. -/
def advances (heap : Heap P A) : (count : ℕ) → Option P → Option (List (Option P) × Option P)
  | 0, p => some ([], p)
  | count + 1, p =>
    (advancePointer heap p).bind fun (old, p) =>
      (advances heap count p).map fun (rest, p) => (old :: rest, p)

section Loop

variable [DecidableEq P]

def setNext (heap : Heap P A) (p : P) (next : Option P) : Heap P A :=
  fun q => if q = p then (heap q).map fun info => { info with ai_next := next } else heap q

/-- What `ResolveSync` does to the result of `getaddrinfo`: the ring, and the `tail` that the
deleter captures. -/
def makeRing (heap : Heap P A) (fuel : ℕ) (res : P) : Option (Heap P A × P) :=
  (findTail heap fuel res).map fun tail => (setNext heap tail (some res), tail)

/-- The deleter, up to its call of `freeaddrinfo`. -/
def deleter (heap : Heap P A) (tail : P) : Heap P A := setNext heap tail none

/-- `for (int64_t i = 0; c.use_count; ++i)` on pointers, from `i` on: the value of `i` at the end,
`c.use_count` and `c.addr`. `none` where a pointer dangles or `fuel` passes do not suffice. -/
def rotatePointer (heap : Heap P A) (addr : P) : (fuel i use_count : ℕ) → Option P →
    Option (ℕ × ℕ × Option P)
  | _, i, 0, p => some (i, 0, p)
  | 0, _, _ + 1, _ => none
  | fuel + 1, i, left + 1, p =>
    (advancePointer heap p).bind fun (_, p) =>
      rotatePointer heap addr fuel (i + 1) (if p = some addr then left % (i + 1) else left) p

end Loop

section Listed

variable {heap : Heap P A} {last : Option P} {items front back : List P} {p : P}

theorem listed_append : Listed heap last (front ++ back) ↔
    Listed heap (back.head?.or last) front ∧ Listed heap last back := by
  induction front with
  | nil => simp [Listed]
  | cons q rest ih =>
      have joined : (rest ++ back).head?.or last = rest.head?.or (back.head?.or last) := by
        cases rest <;> simp
      simp only [List.cons_append, Listed, ih, joined, and_assoc]

theorem listed_congr {heap' : Heap P A} (same : ∀ q ∈ items, heap' q = heap q)
    (listed : Listed heap last items) : Listed heap' last items := by
  induction items with
  | nil => trivial
  | cons q rest ih =>
      obtain ⟨⟨a, found⟩, more⟩ := listed
      refine ⟨⟨a, (same q List.mem_cons_self).trans found⟩, ?_⟩
      exact ih (fun r member => same r (List.mem_cons_of_mem _ member)) more

/-- What is listed from an entry on is determined by the entry. -/
theorem listed_unique (one : Listed heap none (p :: front)) (other : Listed heap none (p :: back)) :
    front = back := by
  induction front generalizing p back with
  | nil =>
      obtain ⟨⟨a, found⟩, -⟩ := one
      obtain ⟨⟨b, again⟩, -⟩ := other
      rw [found] at again
      cases back with
      | nil => rfl
      | cons q more => cases again
  | cons q rest ih =>
      obtain ⟨⟨a, found⟩, one⟩ := one
      obtain ⟨⟨b, again⟩, other⟩ := other
      rw [found] at again
      cases back with
      | nil => cases again
      | cons r more =>
          cases again
          rw [ih one other]

/-- A list that ends in a null pointer does not meet an entry twice. -/
theorem listed_nodup (listed : Listed heap none items) : items.Nodup := by
  induction items with
  | nil => exact List.nodup_nil
  | cons q rest ih =>
      refine List.nodup_cons.mpr ⟨fun again => ?_, ih listed.2⟩
      obtain ⟨front, back, rfl⟩ := List.append_of_mem again
      have later : Listed heap none (q :: back) := (listed_append.mp listed.2).2
      have same := congrArg List.length (listed_unique listed later)
      simp only [List.length_append, List.length_cons] at same
      omega

theorem findTail_listed {fuel : ℕ} (listed : Listed heap none (front ++ [p]))
    (enough : front.length < fuel) {res : P} (first : (front ++ [p]).head? = some res) :
    findTail heap fuel res = some p := by
  induction front generalizing fuel res with
  | nil =>
      cases first
      obtain ⟨⟨a, found⟩, -⟩ := listed
      cases fuel with
      | zero => cases enough
      | succ fuel => simp [findTail, found]
  | cons q rest ih =>
      cases first
      obtain ⟨⟨a, found⟩, more⟩ := listed
      cases fuel with
      | zero => cases enough
      | succ fuel =>
          have shorter : rest.length < fuel := by simpa using enough
          obtain ⟨next, isNext⟩ : ∃ next, (rest ++ [p]).head? = some next := by
            cases rest <;> exact ⟨_, rfl⟩
          simp only [List.append_eq, isNext, Option.some_or] at found
          simp [findTail, found, ih more shorter isNext]

theorem listed_get (listed : Listed heap last items) {j : ℕ} (found : items[j]? = some p) :
    ∃ ai_addr, heap p = some ⟨ai_addr, items[j + 1]?.or last⟩ := by
  induction items generalizing j with
  | nil => cases found
  | cons q rest ih =>
      cases j with
      | zero =>
          cases found
          obtain ⟨⟨a, found⟩, -⟩ := listed
          refine ⟨a, ?_⟩
          rw [found, List.head?_eq_getElem?]
          rfl
      | succ j => exact ih listed.2 found

end Listed

section Ring

variable {ring : Heap P A} {c : Cursor P}

/-- The pointer that a cursor stands for. -/
def pointer (c : Cursor P) : Option P := c.items[c.pos]?

theorem pointer_eq (c : Cursor P) : pointer c = some (c.items.get ⟨c.pos, c.inside⟩) :=
  List.getElem?_eq_getElem c.inside

/-- On a ring, `Advance` takes a pointer to where the cursor is next. -/
theorem advancePointer_ring (listed : Listed ring c.items.head? c.items) :
    advancePointer ring (pointer c) = some (pointer c, pointer c.next) := by
  obtain ⟨a, found⟩ := listed_get listed (pointer_eq c)
  have next : c.items[c.pos + 1]?.or c.items.head? = pointer c.next := by
    have inside := c.inside
    rw [pointer, Cursor.next_items, Cursor.next_pos]
    by_cases more : c.pos + 1 < c.items.length
    · rw [Nat.mod_eq_of_lt more, List.getElem?_eq_getElem more, Option.some_or]
    · have last : c.pos + 1 = c.items.length := by omega
      rw [List.getElem?_eq_none (by omega), Option.none_or, last, Nat.mod_self,
        List.head?_eq_getElem?]
  rw [pointer_eq c, advancePointer, found, Option.map_some, next]

theorem advances_ring (listed : Listed ring c.items.head? c.items) (count : ℕ) :
    advances ring count (pointer c) =
      some ((List.range count).map fun j => pointer (Cursor.next^[j] c),
        pointer (Cursor.next^[count] c)) := by
  induction count generalizing c with
  | zero => rfl
  | succ count ih =>
      have later := ih (c := c.next) listed
      rw [advances, advancePointer_ring listed]
      show Option.map _ (advances ring count (pointer c.next)) = _
      rw [later, List.range_succ_eq_map]
      simp [Function.comp_def]

/-- A full turn visits every item once and ends where it began. -/
theorem advances_turn {items : List P} (filled : items ≠ [])
    (listed : Listed ring items.head? items) :
    advances ring items.length items.head? = some (items.map some, items.head?) := by
  have turn := advances_ring (c := Cursor.head items filled) listed items.length
  have start : pointer (Cursor.head items filled) = items.head? := by
    rw [List.head?_eq_getElem?]
    rfl
  have back : pointer (Cursor.next^[items.length] (Cursor.head items filled)) = items.head? := by
    rw [pointer, Cursor.iterate_items, Cursor.iterate_pos, List.head?_eq_getElem?]
    simp
  rw [start, back] at turn
  rw [turn]
  refine congrArg (fun visited => some (visited, items.head?)) ?_
  apply List.ext_getElem
  · simp
  · intro j inside _
    have within : j < items.length := by simpa using inside
    simp [pointer, Nat.mod_eq_of_lt within, within]

variable {addr : P}

/-- Pointers into the ring are compared like positions. -/
theorem pointer_eq_head (nodup : c.items.Nodup) (first : c.items.head? = some addr) :
    pointer c = some addr ↔ c.pos = 0 := by
  rw [List.head?_eq_getElem?] at first
  constructor
  · intro same
    exact (List.getElem?_inj c.inside nodup).mp (same.trans first.symm)
  · intro zero
    rw [pointer, zero, first]

variable [DecidableEq P]

/-- One pass of the loop, on cursors. -/
theorem rotatePointer_step {fuel i left : ℕ} (listed : Listed ring c.items.head? c.items)
    (nodup : c.items.Nodup) (first : c.items.head? = some addr) :
    rotatePointer ring addr (fuel + 1) i (left + 1) (pointer c) =
      rotatePointer ring addr fuel (i + 1) (if c.next.pos = 0 then left % (i + 1) else left)
        (pointer c.next) := by
  have compared : pointer c.next = some addr ↔ c.next.pos = 0 := pointer_eq_head nodup first
  rw [rotatePointer, advancePointer_ring listed]
  show rotatePointer ring addr fuel (i + 1) (if pointer c.next = some addr then _ else left) _ = _
  simp only [compared]

/-- While the end of the ring is out of reach the loop does not come round to the head. -/
theorem rotatePointer_short (i left extra : ℕ) (listed : Listed ring c.items.head? c.items)
    (nodup : c.items.Nodup) (first : c.items.head? = some addr)
    (short : c.pos + left < c.items.length) :
    rotatePointer ring addr (left + extra) i left (pointer c) =
      some (i + left, 0, pointer (Cursor.next^[left] c)) := by
  induction left generalizing c i with
  | zero => simp [rotatePointer]
  | succ left ih =>
      have more : c.pos + 1 < c.items.length := by omega
      have place := Cursor.next_pos_of_lt more
      have elsewhere : c.next.pos ≠ 0 := by omega
      have rest := ih (c := c.next) (i + 1) listed nodup first
        (by rw [place, Cursor.next_items]; omega)
      rw [Nat.add_right_comm, rotatePointer_step listed nodup first, if_neg elsewhere, rest,
        Function.iterate_succ_apply]
      congr 2
      omega

/-- The first time round to the head what is left is taken modulo the length of the ring. -/
theorem rotatePointer_turn (u extra : ℕ) (listed : Listed ring c.items.head? c.items)
    (nodup : c.items.Nodup) (first : c.items.head? = some addr)
    (enough : c.items.length ≤ c.pos + u) :
    rotatePointer ring addr (c.items.length - c.pos + extra) c.pos u (pointer c) =
      rotatePointer ring addr extra c.items.length ((c.pos + u) % c.items.length)
        c.items.head? := by
  have inside := c.inside
  induction remaining : c.items.length - c.pos generalizing c u with
  | zero => omega
  | succ more ih =>
      obtain ⟨left, rfl⟩ : ∃ left, u = left + 1 := ⟨u - 1, by omega⟩
      rw [Nat.add_right_comm, rotatePointer_step listed nodup first]
      by_cases around : c.pos + 1 = c.items.length
      · have back := c.next_pos_eq_zero.mpr around
        have wrapped : (c.pos + (left + 1)) % c.items.length = left % c.items.length := by
          rw [← around, show c.pos + (left + 1) = left + (c.pos + 1) by omega, Nat.add_mod_right]
        have last : more = 0 := by omega
        rw [if_pos back, (pointer_eq_head (c := c.next) nodup first).mpr back, wrapped, first,
          around, last, Nat.zero_add]
      · have further : c.pos + 1 < c.items.length := by omega
        have place := Cursor.next_pos_of_lt further
        have elsewhere : c.next.pos ≠ 0 := by omega
        have rest := ih (c := c.next) left listed nodup first
          (by rw [place, Cursor.next_items]; omega) c.next.inside
          (by rw [place, Cursor.next_items]; omega)
        rw [place, Cursor.next_items] at rest
        rw [if_neg elsewhere, rest]
        congr 2
        omega

/-- The loop on cursors computes what the loop on pointers does. -/
theorem rotatePointer_rotate {head : Cursor P} {fuel i u : ℕ}
    (listed : Listed ring c.items.head? c.items) (nodup : c.items.Nodup)
    (first : c.items.head? = some addr) (start : head.pos = 0) (enough : u ≤ fuel) :
    ∃ passes, rotatePointer ring addr fuel i u (pointer c) =
      some (passes, (rotate head fuel i u c).1, pointer (rotate head fuel i u c).2) := by
  induction fuel generalizing c i u with
  | zero =>
      cases Nat.le_zero.mp enough
      exact ⟨i, rfl⟩
  | succ fuel ih =>
      cases u with
      | zero => exact ⟨i, rfl⟩
      | succ left =>
          have fewer : (if c.next.pos = 0 then left % (i + 1) else left) ≤ fuel := by
            have := Nat.mod_le left (i + 1)
            split <;> omega
          obtain ⟨passes, rest⟩ := ih (c := c.next) (i := i + 1) listed nodup first fewer
          refine ⟨passes, ?_⟩
          rw [rotatePointer_step listed nodup first, rest]
          simp only [rotate, Nat.add_one_ne_zero, ↓reduceIte, Nat.add_sub_cancel, start]

end Ring

section MakeRing

variable [DecidableEq P] {heap : Heap P A} {front : List P} {p : P}

theorem setNext_other {q : P} (next : Option P) (other : q ≠ p) : setNext heap p next q = heap q := by
  simp [setNext, other]

/-- Linking the last entry to the first makes a ring, and null in its place undoes that. -/
theorem makeRing_spec {items : List P} (filled : items ≠ []) (listed : Listed heap none items) :
    ∃ ring tail,
      (∀ fuel res, items.length ≤ fuel → items.head? = some res →
        makeRing heap fuel res = some (ring, tail)) ∧
      Listed ring items.head? items ∧ deleter ring tail = heap := by
  obtain ⟨front, tail, rfl⟩ : ∃ front tail, items = front ++ [tail] :=
    ⟨items.dropLast, items.getLast filled, (List.dropLast_append_getLast filled).symm⟩
  have nodup := listed_nodup listed
  rw [List.nodup_append_comm, List.singleton_append, List.nodup_cons] at nodup
  obtain ⟨before, ⟨a, found⟩, -⟩ := listed_append.mp listed
  obtain ⟨res, first⟩ : ∃ res, (front ++ [tail]).head? = some res := by
    cases front <;> exact ⟨_, rfl⟩
  have last : setNext heap tail (some res) tail = some ⟨a, some res⟩ := by
    simp [setNext, found]
  refine ⟨setNext heap tail (some res), tail, ?_, ?_, ?_⟩
  · intro fuel res' enough first'
    rw [first] at first'
    cases first'
    rw [List.length_append, List.length_singleton] at enough
    rw [makeRing, findTail_listed listed (by omega) first]
    rfl
  · rw [first]
    apply listed_append.mpr
    refine ⟨?_, ⟨a, last⟩, trivial⟩
    refine listed_congr (fun q member => setNext_other _ ?_) before
    rintro rfl
    exact nodup.1 member
  · funext q
    by_cases same : q = tail
    · subst same
      rw [deleter, setNext, if_pos rfl, last, found]
      rfl
    · rw [deleter, setNext_other _ same, setNext_other _ same]

end MakeRing

/-- `ResolveSync` makes a ring of every list that `getaddrinfo` returns: `Advance` visits each
entry once, in the order of the list, and its deleter restores the list. However many answers
have been given, the loop of `ProcessCacheEntry` accounts for them in less than two turns. -/
theorem ring_of_list [DecidableEq P] {heap : Heap P A} {res : P} {rest : List P}
    (listed : Listed heap none (res :: rest)) :
    ∃ ring tail,
      (∀ fuel, rest.length + 1 ≤ fuel → makeRing heap fuel res = some (ring, tail)) ∧
      advances ring (rest.length + 1) (some res) = some ((res :: rest).map some, some res) ∧
      deleter ring tail = heap ∧
      ∀ u, ∃ passes ≤ 2 * (rest.length + 1) - 1, ∀ fuel, passes ≤ fuel →
        rotatePointer ring res fuel 0 u (some res) =
          some (passes, 0, (res :: rest)[u % (rest.length + 1)]?) := by
  have filled : res :: rest ≠ [] := List.cons_ne_nil _ _
  have nodup := listed_nodup listed
  obtain ⟨ring, tail, made, ringed, restored⟩ := makeRing_spec filled listed
  refine ⟨ring, tail, fun fuel enough => made fuel res enough rfl, ?_, restored, fun u => ?_⟩
  · exact advances_turn filled ringed
  · let head := Cursor.head (res :: rest) filled
    have length : head.items.length = rest.length + 1 := rfl
    have place : ∀ left, pointer (Cursor.next^[left] head) =
        (res :: rest)[left % (rest.length + 1)]? := by
      intro left
      rw [pointer, Cursor.iterate_items, Cursor.iterate_pos, length, Cursor.head_pos, Nat.zero_add]
      rfl
    by_cases short : u < rest.length + 1
    · refine ⟨u, by omega, fun fuel enough => ?_⟩
      obtain ⟨extra, rfl⟩ := Nat.exists_eq_add_of_le enough
      have passed := rotatePointer_short (c := head) 0 u extra ringed nodup rfl
        (by rw [length, Cursor.head_pos]; omega)
      rw [place, Nat.zero_add] at passed
      exact passed
    · have fewer : u % (rest.length + 1) < rest.length + 1 := Nat.mod_lt _ (Nat.succ_pos _)
      refine ⟨rest.length + 1 + u % (rest.length + 1), by omega, fun fuel enough => ?_⟩
      obtain ⟨extra, rfl⟩ := Nat.exists_eq_add_of_le enough
      have turned := rotatePointer_turn (c := head) u (u % (rest.length + 1) + extra) ringed nodup
        rfl (by rw [length, Cursor.head_pos]; omega)
      have passed := rotatePointer_short (c := head) (rest.length + 1) (u % (rest.length + 1))
        extra ringed nodup rfl (by rw [length, Cursor.head_pos]; omega)
      rw [place, Nat.mod_mod] at passed
      rw [length, Cursor.head_pos, Nat.zero_add, Nat.sub_zero, ← Nat.add_assoc] at turned
      exact turned.trans passed

/-- Two entries. -/
def twoAddresses : Heap ℕ ℕ
  | 0 => some ⟨10, some 1⟩
  | 1 => some ⟨11, none⟩
  | _ => none

theorem ring_of_list_twoAddresses :
    ∃ ring tail, makeRing twoAddresses 2 0 = some (ring, tail) ∧
      advances ring 2 (some 0) = some ([some 0, some 1], some 0) ∧
      ∃ passes ≤ 3, rotatePointer ring 0 3 0 1000001 (some 0) = some (passes, 0, some 1) := by
  have listed : Listed twoAddresses none [0, 1] := ⟨⟨10, rfl⟩, ⟨11, rfl⟩, trivial⟩
  obtain ⟨ring, tail, made, turn, -, rotated⟩ := ring_of_list listed
  refine ⟨ring, tail, made 2 (by decide), turn, ?_⟩
  obtain ⟨passes, few, ran⟩ := rotated 1000001
  exact ⟨passes, few, ran 3 few⟩

end Hcproxy.Dns
