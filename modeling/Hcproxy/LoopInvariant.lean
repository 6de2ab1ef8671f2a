import Mathlib.Data.List.Pairwise
import Hcproxy.Loop

set_option autoImplicit false

namespace Hcproxy.Loop

/-- What a handler is while it is registered. -/
structure Reg where
  serial : ℕ
  fd : Fd
  deadline : ℕ

def Handler.reg (h : Handler) : Option Reg :=
  if h.event_loop then some ⟨h.serial, h.fd, h.deadline⟩ else none

def State.reg (s : State) (a : Addr) : Option Reg := (s.heap a).bind Handler.reg

/-- The objects in memory. -/
def State.live (s : State) (a : Addr) : Option ℕ := (s.heap a).map Handler.serial

/-- Each object that was constructed is in one place in memory or was deleted once. -/
structure Objects (live : Addr → Option ℕ) (serials : ℕ) (graves : List Grave) : Prop where
  bounded : ∀ a k, live a = some k → k < serials
  unique : ∀ a b k, live a = some k → live b = some k → a = b
  buried : ∀ g ∈ graves, g.serial < serials ∧ g.ref_count = 0 ∧ g.event_loop = false ∧
    ∀ a, live a ≠ some g.serial
  once : (graves.map Grave.serial).Nodup
  all : ∀ k < serials, (∃ a, live a = some k) ∨ k ∈ graves.map Grave.serial

/-- `items` are the registered handlers in the order of `expire_`. -/
structure Listed (s : State) (items : List Addr) : Prop where
  repr : Linked.Repr s.nodes s.expire items
  registered : ∀ a, a ∈ items ↔ ∃ r, s.reg a = some r
  sorted : items.Pairwise fun a b => ∀ r q, s.reg a = some r → s.reg b = some q →
    r.deadline ≤ q.deadline
  total : s.epoll.total_events = items.length + 1

/-- The reference count of a handler to which `Loop` holds `n` references. It is zero only before
the first reference is taken. -/
def Counted (n : ℕ) : Option Handler → Prop
  | none => n = 0
  | some h => h.ref_count = h.event_loop.toNat + h.held + n ∧ (h.ref_count = 0 ↔ h.used = false)

/-- What holds whenever `Loop` holds `temps` references of its own. -/
structure Inv (timeout : ℕ) (temps : Addr → ℕ) (s : State) : Prop where
  objects : Objects s.live s.serials s.graves
  listed : ∃ items, Listed s items
  halves : ∀ a, (s.nodes a).isSome = (s.heap a).isSome
  counted : ∀ a, Counted (temps a) (s.heap a)
  bound : ∀ a r, s.reg a = some r → r.deadline ≤ s.clock + timeout
  entries : ∀ e ∈ s.epoll.interest, ∀ a, e.data = some a →
    ∃ r, s.reg a = some r ∧ r.fd = e.fd ∧ e.owner = some r.serial
  told : ∀ c ∈ s.calls, c.registered = true ∧ ∀ owner, c.owner = some owner → owner = c.serial

/-- An object that is deleted leaves its place. -/
theorem Objects.delete {live : Addr → Option ℕ} {serials : ℕ} {graves : List Grave} {a : Addr}
    {k : ℕ} (objects : Objects live serials graves) (here : live a = some k) :
    Objects (Function.update live a none) serials (graves ++ [⟨k, 0, false⟩]) := by
  have elsewhere : ∀ b i, Function.update live a none b = some i → b ≠ a ∧ live b = some i := by
    intro b i found
    by_cases it : b = a
    · subst it
      simp at found
    · exact ⟨it, by simpa [it] using found⟩
  constructor
  · exact fun b i found => objects.bounded b i (elsewhere b i found).2
  · intro b c i one other
    exact objects.unique b c i (elsewhere b i one).2 (elsewhere c i other).2
  · intro g member
    rcases List.mem_append.mp member with old | new
    · obtain ⟨below, count, loop, absent⟩ := objects.buried g old
      exact ⟨below, count, loop, fun b found => absent b (elsewhere b _ found).2⟩
    · rw [List.mem_singleton.mp new]
      refine ⟨objects.bounded a k here, rfl, rfl, fun b found => ?_⟩
      obtain ⟨other, found⟩ := elsewhere b _ found
      exact other (objects.unique b a k found here)
  · rw [List.map_append, List.nodup_append_comm]
    refine List.nodup_cons.mpr ⟨?_, objects.once⟩
    intro member
    obtain ⟨g, old, same⟩ := List.mem_map.mp member
    refine (objects.buried g old).2.2.2 a ?_
    rw [same]
    exact here
  · intro i below
    rcases objects.all i below with ⟨b, found⟩ | old
    · by_cases it : b = a
      · subst it
        rw [here] at found
        cases found
        exact .inr (by simp)
      · exact .inl ⟨b, by simpa [it] using found⟩
    · rw [List.map_append]
      exact .inr (List.mem_append_left _ old)

/-- An object is constructed where there is none. -/
theorem Objects.construct {live : Addr → Option ℕ} {serials : ℕ} {graves : List Grave} {a : Addr}
    (objects : Objects live serials graves) (vacant : live a = none) :
    Objects (Function.update live a (some serials)) (serials + 1) graves := by
  have elsewhere : ∀ b i, Function.update live a (some serials) b = some i →
      (b = a ∧ i = serials) ∨ (live b = some i ∧ i < serials) := by
    intro b i found
    by_cases it : b = a
    · subst it
      rw [Function.update_self] at found
      exact .inl ⟨rfl, (Option.some.inj found).symm⟩
    · rw [Function.update_of_ne it] at found
      exact .inr ⟨found, objects.bounded b i found⟩
  constructor
  · intro b i found
    rcases elsewhere b i found with ⟨_, rfl⟩ | ⟨_, below⟩ <;> omega
  · intro b c i one other
    rcases elsewhere b i one with ⟨rfl, rfl⟩ | ⟨foundB, below⟩
    · rcases elsewhere c _ other with ⟨rfl, _⟩ | ⟨_, below⟩
      · rfl
      · omega
    · rcases elsewhere c i other with ⟨rfl, rfl⟩ | ⟨foundC, _⟩
      · omega
      · exact objects.unique b c i foundB foundC
  · intro g member
    obtain ⟨below, count, loop, absent⟩ := objects.buried g member
    refine ⟨by omega, count, loop, fun b found => ?_⟩
    rcases elsewhere b _ found with ⟨_, new⟩ | ⟨old, _⟩
    · omega
    · exact absent b old
  · exact objects.once
  · intro i below
    by_cases new : i = serials
    · subst new
      exact .inl ⟨a, by simp⟩
    · rcases objects.all i (by omega) with ⟨b, found⟩ | old
      · have other : b ≠ a := by
          rintro rfl
          rw [vacant] at found
          cases found
        exact .inl ⟨b, by rwa [Function.update_of_ne other]⟩
      · exact .inr old

section Reg

variable {s : State} {a : Addr} {h : Handler} {r : Reg}

theorem State.reg_eq_some : s.reg a = some r ↔
    ∃ h, s.heap a = some h ∧ h.event_loop = true ∧ r = ⟨h.serial, h.fd, h.deadline⟩ := by
  simp only [State.reg, Option.bind_eq_some_iff, Handler.reg]
  constructor
  · rintro ⟨h, found, registered⟩
    split at registered
    · rename_i on
      exact ⟨h, found, on, (Option.some.inj registered).symm⟩
    · cases registered
  · rintro ⟨h, found, on, rfl⟩
    exact ⟨h, found, by simp [on]⟩

theorem State.reg_of_registered (found : s.heap a = some h) (on : h.event_loop = true) :
    s.reg a = some ⟨h.serial, h.fd, h.deadline⟩ :=
  State.reg_eq_some.mpr ⟨h, found, on, rfl⟩

theorem State.reg_of_unregistered (found : s.heap a = some h) (off : h.event_loop = false) :
    s.reg a = none := by
  simp [State.reg, found, Handler.reg, off]

theorem reg_of_heap {t : State} {cell : Option Handler}
    (heap : t.heap = Function.update s.heap a cell) :
    t.reg = Function.update s.reg a (cell.bind Handler.reg) := by
  funext b
  unfold State.reg
  rw [heap]
  by_cases same : b = a
  · subst same
    simp
  · simp [same]

theorem live_of_heap {t : State} {cell : Option Handler}
    (heap : t.heap = Function.update s.heap a cell) :
    t.live = Function.update s.live a (cell.map Handler.serial) := by
  funext b
  unfold State.live
  rw [heap]
  by_cases same : b = a
  · subst same
    simp
  · simp [same]

theorem live_same {t : State} {h' : Handler} (found : s.heap a = some h)
    (heap : t.heap = Function.update s.heap a (some h')) (serial : h'.serial = h.serial) :
    t.live = s.live := by
  rw [live_of_heap heap]
  exact Function.update_eq_self_iff.mpr (by simp [State.live, found, serial])

theorem reg_same {t : State} {h' : Handler} (found : s.heap a = some h)
    (heap : t.heap = Function.update s.heap a (some h')) (reg : h'.reg = h.reg) :
    t.reg = s.reg := by
  rw [reg_of_heap heap]
  exact Function.update_eq_self_iff.mpr (by simp [State.reg, found, reg])

end Reg

variable {timeout : ℕ} {temps temps' : Addr → ℕ} {s : State}

theorem Listed.congr {t : State} {items : List Addr} (listed : Listed s items)
    (nodes : t.nodes = s.nodes) (expire : t.expire = s.expire) (reg : t.reg = s.reg)
    (total : t.epoll.total_events = s.epoll.total_events) : Listed t items := by
  obtain ⟨repr, registered, sorted, count⟩ := listed
  refine ⟨by rwa [nodes, expire], by rwa [reg], by rwa [reg], by rwa [total]⟩

theorem counted_update {heap : Addr → Option Handler} {a : Addr} {cell : Option Handler}
    (counted : ∀ b, Counted (temps b) (heap b)) (here : Counted (temps' a) cell)
    (others : ∀ b, b ≠ a → temps' b = temps b) :
    ∀ b, Counted (temps' b) (Function.update heap a cell b) := by
  intro b
  by_cases it : b = a
  · subst it
    rwa [Function.update_self]
  · rw [Function.update_of_ne it, others b it]
    exact counted b

theorem isSome_update {P C : Type} {nodes : Addr → Option P} {heap : Addr → Option C} {a : Addr}
    {node : Option P} {cell : Option C} (halves : ∀ b, (nodes b).isSome = (heap b).isSome)
    (here : node.isSome = cell.isSome) (b : Addr) :
    (Function.update nodes a node b).isSome = (Function.update heap a cell b).isSome := by
  by_cases it : b = a
  · subst it
    simpa using here
  · simpa [it] using halves b

theorem isSome_update_heap {P C : Type} {nodes : Addr → Option P} {heap : Addr → Option C}
    {a : Addr} {c : C} {cell : Option C} (halves : ∀ b, (nodes b).isSome = (heap b).isSome)
    (found : heap a = some c) (here : cell.isSome = true) (b : Addr) :
    (nodes b).isSome = (Function.update heap a cell b).isSome := by
  rw [halves b]
  by_cases it : b = a
  · subst it
    simp [found, here]
  · simp [it]

/-- What is to be shown when a handler is overwritten. -/
theorem Inv.write {t : State} {a : Addr} {h h' : Handler} (inv : Inv timeout temps s)
    (found : s.heap a = some h) (heap : t.heap = Function.update s.heap a (some h'))
    (serial : h'.serial = h.serial)
    (same : t.serials = s.serials ∧ t.graves = s.graves ∧ t.calls = s.calls)
    (nodes : ∀ b, (t.nodes b).isSome = (s.nodes b).isSome)
    (here : Counted (temps' a) (some h')) (others : ∀ b, b ≠ a → temps' b = temps b)
    (listed : ∃ items, Listed t items)
    (bound : ∀ b r, t.reg b = some r → r.deadline ≤ t.clock + timeout)
    (entries : ∀ e ∈ t.epoll.interest, ∀ b, e.data = some b →
      ∃ r, t.reg b = some r ∧ r.fd = e.fd ∧ e.owner = some r.serial) : Inv timeout temps' t := by
  obtain ⟨serials, graves, calls⟩ := same
  refine ⟨?_, listed, ?_, ?_, bound, entries, ?_⟩
  · rw [live_same found heap serial, serials, graves]
    exact inv.objects
  · intro b
    rw [nodes b, heap]
    exact isSome_update_heap inv.halves found rfl b
  · rw [heap]
    exact counted_update inv.counted here others
  · rw [calls]
    exact inv.told

/-- Counting references changes nothing else. -/
theorem Inv.put {a : Addr} {h h' : Handler} (inv : Inv timeout temps s)
    (found : s.heap a = some h) (reg : h'.reg = h.reg) (serial : h'.serial = h.serial)
    (here : Counted (temps' a) (some h')) (others : ∀ b, b ≠ a → temps' b = temps b) :
    Inv timeout temps' (s.put a h') := by
  have same : (s.put a h').reg = s.reg := reg_same found rfl reg
  refine inv.write found rfl serial ⟨rfl, rfl, rfl⟩ (fun _ => rfl) here others ?_ ?_ ?_
  · obtain ⟨items, listed⟩ := inv.listed
    exact ⟨items, listed.congr rfl rfl same rfl⟩
  · rw [same]
    exact inv.bound
  · rw [same]
    exact inv.entries

/-- What is left alone when references are counted, and the objects that stay. -/
structure Quiet (temps : Addr → ℕ) (s t : State) : Prop where
  reg : t.reg = s.reg
  clock : t.clock = s.clock
  epoll : t.epoll = s.epoll
  phase : t.phase = s.phase
  promises : t.promises = s.promises
  live : ∀ a, temps a ≠ 0 → t.live a = s.live a

theorem Quiet.trans {t u : State} (first : Quiet temps s t) (second : Quiet temps t u) :
    Quiet temps s u :=
  ⟨second.reg.trans first.reg, second.clock.trans first.clock, second.epoll.trans first.epoll,
    second.phase.trans first.phase, second.promises.trans first.promises,
    fun a some => (second.live a some).trans (first.live a some)⟩

theorem Quiet.mono {t : State} (quiet : Quiet temps s t)
    (fewer : ∀ a, temps' a ≠ 0 → temps a ≠ 0) : Quiet temps' s t :=
  ⟨quiet.reg, quiet.clock, quiet.epoll, quiet.phase, quiet.promises,
    fun a some => quiet.live a (fewer a some)⟩

theorem quiet_put {a : Addr} {h h' : Handler} (found : s.heap a = some h) (reg : h'.reg = h.reg)
    (serial : h'.serial = h.serial) : Quiet temps s (s.put a h') :=
  ⟨reg_same found rfl reg, rfl, rfl, rfl, rfl,
    fun b _ => congrFun (live_same found rfl serial) b⟩

/-- One more reference. -/
def bump (temps : Addr → ℕ) (a : Addr) : Addr → ℕ := Function.update temps a (temps a + 1)

theorem bump_self (temps : Addr → ℕ) (a : Addr) : bump temps a a = temps a + 1 :=
  Function.update_self _ _ _

theorem bump_other (temps : Addr → ℕ) {a b : Addr} (other : b ≠ a) : bump temps a b = temps b :=
  Function.update_of_ne other _ _

theorem bump_ne_zero {a b : Addr} (some : temps b ≠ 0) : bump temps a b ≠ 0 := by
  by_cases it : b = a
  · subst it
    rw [bump_self]
    omega
  · rwa [bump_other temps it]

section References

variable {a : Addr} {h : Handler}

theorem incRef_spec (inv : Inv timeout temps s) (found : s.heap a = some h)
    (more : temps' a = temps a + 1) (others : ∀ b, b ≠ a → temps' b = temps b) :
    ∃ t, s.incRef a = .ok t ∧ Inv timeout temps' t ∧ Quiet temps' s t ∧ t.live = s.live := by
  have here := inv.counted a
  rw [found] at here
  refine ⟨s.put a { h with ref_count := h.ref_count + 1, used := true }, by simp [State.incRef, found],
    inv.put found rfl rfl ⟨?_, by simp⟩ others, quiet_put found rfl rfl,
    live_same found rfl rfl⟩
  have count := here.1
  dsimp only
  omega

/-- A reference is taken and noted, or noted and given back. -/
theorem hold_spec (f : ℕ → ℕ) (inv : Inv timeout temps s) (found : s.heap a = some h)
    (moves : f h.held + temps' a = h.held + temps a) (others : ∀ b, b ≠ a → temps' b = temps b) :
    Inv timeout temps' (s.hold a f) ∧ Quiet temps' s (s.hold a f) := by
  have eq : s.hold a f = s.put a { h with held := f h.held } := by
    simp [State.hold, State.put, found]
  have here := inv.counted a
  rw [found] at here
  rw [eq]
  refine ⟨inv.put found rfl rfl ⟨?_, here.2⟩ others, quiet_put found rfl rfl⟩
  have count := here.1
  dsimp only
  omega

/-- The last reference is dropped. -/
theorem delete_spec (inv : Inv timeout temps s) (found : s.heap a = some h)
    (off : h.event_loop = false) (gone : temps' a = 0) (others : ∀ b, b ≠ a → temps' b = temps b) :
    ∃ t, s.delete a { h with ref_count := 0 } = .ok t ∧ Inv timeout temps' t ∧
      Quiet temps' s t := by
  obtain ⟨items, listed⟩ := inv.listed
  have noReg := State.reg_of_unregistered found off
  have fresh : a ∉ items := by
    intro member
    obtain ⟨r, some⟩ := (listed.registered a).mp member
    rw [noReg] at some
    cases some
  have here : s.live a = some h.serial := by simp [State.live, found]
  obtain ⟨t, ran, heap, nodes, graves, expire, epoll, clock, phase, promises, serials, calls⟩ :
      ∃ t, s.delete a { h with ref_count := 0 } = .ok t ∧
        t.heap = Function.update s.heap a none ∧ t.nodes = Function.update s.nodes a none ∧
        t.graves = s.graves ++ [⟨h.serial, 0, false⟩] ∧ t.expire = s.expire ∧
        t.epoll = s.epoll ∧ t.clock = s.clock ∧ t.phase = s.phase ∧ t.promises = s.promises ∧
        t.serials = s.serials ∧ t.calls = s.calls :=
    ⟨{ s with
      heap := Function.update s.heap a none
      nodes := Function.update s.nodes a none
      graves := s.graves ++ [⟨h.serial, 0, false⟩] }, by simp [State.delete, off],
      rfl, rfl, rfl, rfl, rfl, rfl, rfl, rfl, rfl, rfl⟩
  have reg : t.reg = s.reg := by
    rw [reg_of_heap heap]
    exact Function.update_eq_self_iff.mpr noReg.symm
  have live := live_of_heap heap
  refine ⟨t, ran, ⟨?_, ⟨items, ?_, ?_, ?_, ?_⟩, ?_, ?_, ?_, ?_, ?_⟩, reg, clock, epoll, phase,
    promises, ?_⟩
  · rw [live, serials, graves]
    exact inv.objects.delete here
  · rw [nodes, expire]
    exact listed.repr.update fresh (by simp)
  · rw [reg]
    exact listed.registered
  · rw [reg]
    exact listed.sorted
  · rw [epoll]
    exact listed.total
  · rw [nodes, heap]
    exact isSome_update inv.halves rfl
  · rw [heap]
    exact counted_update inv.counted gone others
  · rw [reg, clock]
    exact inv.bound
  · rw [reg, epoll]
    exact inv.entries
  · rw [calls]
    exact inv.told
  · intro b some
    have other : b ≠ a := by
      rintro rfl
      exact some gone
    rw [live, Function.update_of_ne other]

theorem decRef_spec (inv : Inv timeout temps s) (less : temps a = temps' a + 1)
    (others : ∀ b, b ≠ a → temps' b = temps b) :
    ∃ t, s.decRef a = .ok t ∧ Inv timeout temps' t ∧ Quiet temps' s t := by
  have here := inv.counted a
  cases found : s.heap a with
  | none =>
      rw [found] at here
      change temps a = 0 at here
      omega
  | some h =>
      rw [found] at here
      obtain ⟨count, used⟩ := here
      have positive : h.ref_count ≠ 0 := by omega
      by_cases last : h.ref_count = 1
      · have off : h.event_loop = false := by
          cases loop : h.event_loop
          · rfl
          · rw [loop, Bool.toNat_true] at count
            omega
        have gone : temps' a = 0 := by omega
        obtain ⟨t, deleted, rest⟩ := delete_spec inv found off gone others
        exact ⟨t, by simp [State.decRef, found, last, deleted], rest⟩
      · refine ⟨s.put a { h with ref_count := h.ref_count - 1 },
          by simp [State.decRef, found, positive, last],
          inv.put found rfl rfl ⟨?_, ?_⟩ others, quiet_put found rfl rfl⟩
        · dsimp only
          omega
        · dsimp only
          rw [← used]
          omega

end References

end Hcproxy.Loop
