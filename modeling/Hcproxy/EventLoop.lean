import Hcproxy.Bits
import Hcproxy.Clock

set_option autoImplicit false

namespace Hcproxy

/-- The fields of an `EventHandler`, and what its fd is registered for in `epoll_`. -/
structure EventHandler where
  event_loop : Bool := false
  ref_count : ℕ := 0
  events : Option Events := none

/-- A timeout that the constructor of `EventLoop` accepts. -/
abbrev Timeout := { timeout : Duration // 0 < timeout }

/-- An `EventLoop`, whose handlers are named by `H`. A node of `expire_` comes with the
`deadline_` of its handler, which is read from there only. -/
structure EventLoop (H : Type) where
  timeout : Timeout
  expire : List (H × ℤ) := []
  total_events : ℕ := 1      -- the read end of `pipe_`

namespace EventLoop

variable {H : Type} [DecidableEq H]

/-- `List::Erase`; a node is linked at most once. -/
def erase (expire : List (H × ℤ)) (h : H) : List (H × ℤ) := expire.filter (·.1 ≠ h)

theorem count_erase_self [BEq H] [LawfulBEq H] (expire : List (H × ℤ)) (h : H) :
    ((erase expire h).map Prod.fst).count h = 0 := by
  simp [erase, List.count_eq_zero]

theorem count_erase_other [BEq H] [LawfulBEq H] (expire : List (H × ℤ)) {h g : H}
    (other : g ≠ h) :
    ((erase expire h).map Prod.fst).count g = (expire.map Prod.fst).count g := by
  induction expire with
  | nil => rfl
  | cons e rest ih =>
      simp only [erase, ne_eq, decide_not] at ih ⊢
      by_cases same : e.1 = h
      · simp [same, Ne.symm other, ih]
      · simp [same, List.count_cons, ih]

theorem mem_of_mem_erase {expire : List (H × ℤ)} {h : H} {e : H × ℤ}
    (member : e ∈ erase expire h) : e ∈ expire :=
  (List.mem_filter.mp member).1

/-- Setting the deadline of a handler before it is erased makes no difference. -/
theorem erase_map (expire : List (H × ℤ)) (h : H) (deadline : ℤ) :
    erase (expire.map fun e => if e.1 = h then (h, deadline) else e) h = erase expire h := by
  induction expire with
  | nil => rfl
  | cons e rest ih =>
      simp only [erase, ne_eq, decide_not, List.map_cons] at ih ⊢
      by_cases same : e.1 = h
      · simp [same, ih]
      · simp [same, ih]

/-- `Add(eh, events)` when the clock reads `now`. Like the others it is `none` where a `CHECK`
fails. -/
def add (loop : EventLoop H) (h : H) (eh : EventHandler) (events : Events) (now : ℕ) :
    Option (EventLoop H × EventHandler) :=
  if eh.event_loop then none
  else some ({ loop with
    expire := loop.expire ++ [(h, Clock.add now loop.timeout)]
    total_events := loop.total_events + 1 },
    { event_loop := true, ref_count := eh.ref_count + 1, events := some events })

/-- `Remove(eh)` up to its `DecRef`, which may delete the handler. -/
def remove (loop : EventLoop H) (h : H) (eh : EventHandler) :
    Option (EventLoop H × EventHandler) :=
  if eh.event_loop ∧ h ∈ loop.expire.map Prod.fst ∧ 0 < loop.total_events then
    some ({ loop with
      expire := erase loop.expire h
      total_events := loop.total_events - 1 },
      { eh with event_loop := false, events := none })
  else none

def modify (loop : EventLoop H) (eh : EventHandler) (events : Events) : Option EventHandler :=
  if eh.event_loop ∧ 0 < loop.total_events then some { eh with events := some events } else none

/-- The `CHECK`s of `Refresh`. -/
inductive RefreshCheck
  | registered     -- `eh->event_loop_ == this`
  | sorted         -- `eh->deadline_ >= tail->deadline_`

/-- `Refresh(eh)` when the clock reads `now`, or the `CHECK` that fails. The handler has its new
deadline before the one of the tail is looked at: they may be the same. -/
def refresh (loop : EventLoop H) (h : H) (eh : EventHandler) (now : ℕ) :
    Except RefreshCheck (EventLoop H) :=
  let deadline := Clock.add now loop.timeout
  let expire := loop.expire.map fun e => if e.1 = h then (h, deadline) else e
  if eh.event_loop ∧ h ∈ loop.expire.map Prod.fst then
    if expire.getLast?.all (·.2 ≤ deadline) then
      .ok { loop with expire := erase expire h ++ [(h, deadline)] }
    else .error .sorted
  else .error .registered

theorem refresh_ok {loop after : EventLoop H} {h : H} {eh : EventHandler} {now : ℕ}
    (refreshed : loop.refresh h eh now = .ok after) :
    after = { loop with
      expire := erase loop.expire h ++ [(h, Clock.add now loop.timeout)] } := by
  simp only [refresh, erase_map] at refreshed
  split at refreshed
  · split at refreshed
    · exact (Except.ok.inj refreshed).symm
    · cases refreshed
  · cases refreshed

/-- `Refresh` of a handler of the loop fails only if another one has a later deadline. -/
theorem refresh_cases (loop : EventLoop H) {h : H} {eh : EventHandler} (now : ℕ)
    (registered : eh.event_loop = true) (member : h ∈ loop.expire.map Prod.fst) :
    loop.refresh h eh now = .ok { loop with
      expire := erase loop.expire h ++ [(h, Clock.add now loop.timeout)] } ∨
    loop.refresh h eh now = .error .sorted ∧
      ∃ e ∈ loop.expire, Clock.add now loop.timeout < e.2 := by
  unfold refresh
  rw [if_pos ⟨registered, member⟩, erase_map]
  split
  · exact Or.inl rfl
  · rename_i unsorted
    refine Or.inr ⟨rfl, ?_⟩
    generalize tail : List.getLast? _ = last at unsorted
    cases last with
    | none => exact absurd rfl unsorted
    | some last =>
        obtain ⟨e, inside, rfl⟩ := List.mem_map.mp (List.mem_of_getLast? tail)
        have later := Int.lt_of_not_ge fun early => unsorted (decide_eq_true early)
        refine ⟨e, inside, ?_⟩
        split at later
        · exact absurd later (Int.lt_irrefl _)
        · exact later

end EventLoop

end Hcproxy
