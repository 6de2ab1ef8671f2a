import Hcproxy.DnsAnswers

set_option autoImplicit false

namespace Hcproxy.Dns

open Ring (Cursor)

variable {κ A : Type} {opt : Options} [DecidableEq κ]

/-- Where the code takes up the round robin after refreshes: the `k`-th answer is address number
`k` modulo the number of addresses exactly when that number divides the number of answers given
before the last refresh but one. -/
theorem round_robin_iff {s : State κ A} (reach : Reachable opt s) {a : Answer κ A}
    (given : a ∈ s.answers) {addrs : List A}
    (same : ∀ l ∈ a.seen, ∃ p, l.result = some p ∧ p.items = addrs)
    {p : Cursor A} (answer : a.addr = some p) :
    p.items = addrs ∧ (p.pos = a.index % addrs.length ↔ addrs.length ∣ base a.seen) := by
  have sound := (ReachableIf.explained reach).answers.given a given
  have picked : pick a.seen a.index = some p := by
    rcases sound.addr with null | picked
    · cases null.symm.trans answer
    · exact picked.symm.trans answer
  obtain ⟨first, isCurrent, rfl⟩ := Option.map_eq_some_iff.mp picked
  obtain ⟨l, member, success⟩ :=
    List.mem_filterMap.mp (List.mem_of_getLast? isCurrent)
  have result : l.result = some first := by
    unfold Lookup.success at success
    split at success
    · exact success
    · cases success
  have items : first.items = addrs := by
    obtain ⟨q, isResult, items⟩ := same l member
    cases Option.some.inj (result.symm.trans isResult)
    exact items
  have head : first.pos = 0 := sound.heads l member first result
  refine ⟨by rw [Cursor.iterate_items, items], ?_⟩
  rw [Cursor.iterate_pos, head, items, Nat.zero_add]
  exact Ring.sub_mod_eq_iff sound.base

/-- Both addresses of the name. -/
def both : { items : List ℕ // items ≠ [] } := ⟨[10, 20], by decide⟩

/-- The first one of them. -/
def addresses : Cursor ℕ := ⟨[10, 20], 0, by decide⟩

/-- What the lookups of the name were when the second caller came. -/
def twoRefreshes : List (Lookup ℕ) :=
  [⟨100, some addresses, some 100, 0⟩, ⟨175, some addresses, some 175, 1⟩,
    ⟨250, some addresses, some 250, 1⟩]

/-- The entry after some lookups, when only its first caller has been answered. -/
def refreshed (now : ℕ) (addr : Cursor ℕ) (use_count : ℕ) (lookups : List (Lookup ℕ)) :
    Node ℕ ℕ where
  key := []
  data := {
    addr := some addr
    used_at := 100
    resolved_at := now
    successfully_resolved_at := now
    use_count }
  lookups
  uses := 1

/-- The first caller has been answered. -/
def answeredOnce : State ℕ ℕ where
  clock := 100
  nodes := [refreshed 100 addresses.next 1 (twoRefreshes.take 1)]
  tasks := [(175, 0)]
  calls := [.done]
  workers := [.done]
  issued := [0]
  answers := [⟨0, some addresses, 0, 0, 100, twoRefreshes.take 1⟩]

/-- Both refreshes have been recorded, and nobody has called since. -/
def refreshedTwice : State ℕ ℕ where
  clock := 250
  nodes := [refreshed 250 addresses 0 twoRefreshes]
  tasks := [(325, 0)]
  calls := [.done]
  workers := [.done, .done, .done]
  issued := [0]
  answers := [⟨0, some addresses, 0, 0, 100, twoRefreshes.take 1⟩]

/-- One caller, two refreshes, another caller. -/
def restarted : State ℕ ℕ where
  clock := 250
  nodes := [{
    key := []
    data := {
      addr := some addresses.next
      used_at := 250
      resolved_at := 250
      successfully_resolved_at := 250
      use_count := 1 }
    lookups := twoRefreshes
    uses := 2 }]
  tasks := [(325, 0)]
  calls := [.done, .done]
  workers := [.done, .done, .done]
  issued := [0, 1]
  answers := [⟨0, some addresses, 0, 0, 100, twoRefreshes.take 1⟩,
    ⟨1, some addresses, 0, 1, 250, twoRefreshes⟩]

theorem answeredOnce_reachable : Reachable ⟨300, 75, 3600⟩ answeredOnce :=
  Runs.replay_reachable
    [.call [] 0, .lockCall 0, .scheduleCall 0, .start 0, .lockWorker 0,
      .returnResolve 0 (some both), .readClock 0, .lockRecord 0, .callback 0, .relock 0,
      .schedule 0]
    (.start ⟨100, rfl⟩) rfl

theorem refreshedTwice_reachable : Reachable ⟨300, 75, 3600⟩ refreshedTwice :=
  Runs.replay_reachable
    [.tick 75, .start 0, .lockWorker 1, .returnResolve 1 (some both),
      .readClock 1, .lockRecord 1, .schedule 1,
      .tick 75, .start 0, .lockWorker 2, .returnResolve 2 (some both),
      .readClock 2, .lockRecord 2, .schedule 2]
    answeredOnce_reachable rfl

theorem restarted_reachable : Reachable ⟨300, 75, 3600⟩ restarted :=
  Runs.replay_reachable [.call [] 1, .lockCall 1, .answerCall 1] refreshedTwice_reachable rfl

theorem twoRefreshes_same :
    ∀ l ∈ twoRefreshes, ∃ p, l.result = some p ∧ p.items = [10, 20] := by
  simp [twoRefreshes, addresses]

theorem round_robin_iff_restarted : addresses.pos = 1 % 2 ↔ 2 ∣ base twoRefreshes :=
  (round_robin_iff restarted_reachable (a := ⟨1, some addresses, 0, 1, 250, twoRefreshes⟩)
    (by simp [restarted]) twoRefreshes_same rfl).2

/-- The second answer is the first address again. -/
theorem restarted_repeats :
    Reachable ⟨300, 75, 3600⟩ restarted ∧ ∃ a ∈ restarted.answers, ∃ p,
      (∀ l ∈ a.seen, ∃ q, l.result = some q ∧ q.items = [10, 20]) ∧ a.addr = some p ∧
        p.pos ≠ a.index % 2 := by
  refine ⟨restarted_reachable, ⟨1, some addresses, 0, 1, 250, twoRefreshes⟩, ?_, addresses,
    twoRefreshes_same, rfl, by decide⟩
  simp [restarted]

end Hcproxy.Dns
