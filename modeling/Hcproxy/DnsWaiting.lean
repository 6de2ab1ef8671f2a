import Hcproxy.DnsCallbacks

set_option autoImplicit false

namespace Hcproxy.Dns

open Ring (Cursor)
open Threads

variable {κ A : Type} {opt : Options}

section Waiting

variable [DecidableEq κ]

/-- How many times a callback is somewhere without having been called. -/
def State.waiting (s : State κ A) (cb : κ) : ℕ :=
  s.count cb .arriving + s.count cb .queued + s.count cb .drained + s.count cb .due

/-- The callbacks that an action passes to `Resolve`. -/
def Action.issues : Action κ A → List κ
  | .call _ cb => [cb]
  | _ => []

/-- The callbacks that an action calls. -/
def State.calling (s : State κ A) : Action κ A → List κ
  | .answerCall i =>
    match s.calls[i]? with
    | some (.calling answer) => [answer.cb]
    | _ => []
  | .callback j =>
    match s.workers[j]? with
    | some (.calling _ (cb :: _) _ _ _ _) => [cb]
    | _ => []
  | _ => []

theorem Placed.waiting {s : State κ A} (placed : Placed s) (cb : κ) :
    s.waiting cb + (s.answers.map Answer.cb).count cb = s.issued.count cb := by
  have once := placed.once cb
  have called : s.count cb .called = (s.answers.map Answer.cb).count cb := (count_cb cb s.answers).symm
  rw [State.waiting, ← once, called]

/-- A callback waits from when it is passed to `Resolve` until it is called. -/
theorem waiting_moved {s t : State κ A} {a : Action κ A} (single : SingleTask s) (before : Placed s)
    (after : Placed t) (moved : Moved opt s a t) (cb : κ) :
    t.waiting cb + (s.calling a).count cb = s.waiting cb + a.issues.count cb := by
  have first := before.waiting cb
  have second := after.waiting cb
  have issued : t.issued = s.issued ++ a.issues := by
    cases moved with
    | call fresh => rfl
    | dangles found uses erased => exact absurd erased (single.node_ne_none found uses)
    | _ => exact (List.append_nil _).symm
  have answered : t.answers.map Answer.cb = s.answers.map Answer.cb ++ s.calling a := by
    cases moved with
    | calls found => simp [State.calling, found]
    | callsBack found => simp [State.calling, found]
    | dangles found uses erased => exact absurd erased (single.node_ne_none found uses)
    | _ => exact (List.append_nil _).symm
  rw [issued, List.count_append] at second
  rw [answered, List.count_append] at second
  omega

end Waiting

theorem set_kept {α : Type} {l : List α} {i j : ℕ} {x y : α} (z : α) (found : l[i]? = some x)
    (written : l[j]? = some y) (apart : i = j → x ≠ y) : (l.set j z)[i]? = some x := by
  have different : j ≠ i := by
    rintro rfl
    exact apart rfl (Option.some.inj (found.symm.trans written))
  rw [List.getElem?_set_ne different, found]

theorem append_kept {α : Type} {l : List α} {i : ℕ} {x : α} (more : List α)
    (found : l[i]? = some x) : (l ++ more)[i]? = some x := by
  rw [List.getElem?_append_left (List.getElem?_eq_some_iff.mp found).1, found]

theorem arriving_stays {s t : State κ A} {a : Action κ A} {i now : ℕ} {host_port : HostPort} {cb : κ}
    (moved : Moved opt s a t) (found : s.calls[i]? = some (.locking host_port cb now))
    (away : a ≠ .lockCall i) : t.calls[i]? = some (.locking host_port cb now) := by
  cases moved with
  | call fresh => exact append_kept _ found
  | creates taken | queues taken | answers taken =>
      refine set_kept _ found taken ?_
      rintro rfl
      exact absurd rfl away
  | schedules taken | calls taken => exact set_kept _ found taken nofun
  | _ => exact found

theorem due_stays {s t : State κ A} {a : Action κ A} {i : ℕ} {answer : Answer κ A}
    (moved : Moved opt s a t) (found : s.calls[i]? = some (.calling answer))
    (away : a ≠ .answerCall i) : t.calls[i]? = some (.calling answer) := by
  cases moved with
  | call fresh => exact append_kept _ found
  | calls taken =>
      refine set_kept _ found taken ?_
      rintro rfl
      exact absurd rfl away
  | creates taken | queues taken | answers taken | schedules taken =>
      exact set_kept _ found taken nofun
  | _ => exact found

theorem calling_stays {s t : State κ A} {a : Action κ A} {j it index now : ℕ} {callbacks : List κ}
    {addr : Option (Cursor A)} {seen : List (Lookup A)} (single : SingleTask s)
    (moved : Moved opt s a t)
    (found : s.workers[j]? = some (.calling it callbacks addr index now seen))
    (away : a ≠ .callback j) (still : a ≠ .relock j) :
    t.workers[j]? = some (.calling it callbacks addr index now seen) := by
  cases moved with
  | starts taken due => exact append_kept _ found
  | callsBack taken =>
      refine set_kept _ found taken ?_
      rintro rfl
      exact absurd rfl away
  | relocks taken node =>
      refine set_kept _ found taken ?_
      rintro rfl
      exact absurd rfl still
  | erases taken | looksUp taken | skips taken | returns taken | reads taken | records taken
  | reschedules taken => exact set_kept _ found taken nofun
  | dangles taken uses erased => exact absurd erased (single.node_ne_none taken uses)
  | _ => exact found

end Hcproxy.Dns
