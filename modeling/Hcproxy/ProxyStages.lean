import Hcproxy.Lib.Ownership
import Hcproxy.ProxyRoutes

set_option autoImplicit false

namespace Hcproxy.Proxy

open Hcproxy.Dns (HostPort)
open Hcproxy.Forwarder (Bytes Kernel Watched)
open Ownership (Owned)
open Programs
open Ring (Cursor)

/-- What happens to a client, until its name is given to the resolver. -/
inductive Stage
  | accepted
  | made             -- there is a `ParseEventHandler` for it
  | added
  | decided          -- `Read` has returned a value
  | removed
  | resolving
  deriving DecidableEq

/-- What has to happen next, and only once. -/
def Stage.next : Stage → Option Stage
  | .accepted => some .made
  | .made => some .added
  | .added => some .removed
  | .removed => some .resolving
  | .decided | .resolving => none

/-- What has to have happened before. -/
def Stage.needs : Stage → Option Stage
  | .accepted => none
  | .made => some .accepted
  | .added => some .made
  | .decided | .removed => some .added
  | .resolving => some .removed

theorem Stage.needs_of_next {m n : Stage} (goes : m.next = some n) : n.needs = some m := by
  cases m <;> cases goes <;> rfl

theorem Stage.next_ne {m n : Stage} (first : n = .accepted ∨ n = .decided) : m.next ≠ some n := by
  intro goes
  rcases first with rfl | rfl
  · cases m <;> cases goes
  · cases m <;> cases goes

variable {A W : Type}

/-- The stage that an operation brings a client to. -/
def stageOf : Event (signature A W) → Option (Stage × File)
  | ⟨.accept, client⟩ => some (.accepted, client)
  | ⟨.new (.parse client), _⟩ => some (.made, client)
  | ⟨.add (.parse client), _⟩ => some (.added, client)
  | ⟨.read (.parse client), some _⟩ => some (.decided, client)
  | ⟨.remove (.parse client), _⟩ => some (.removed, client)
  | ⟨.resolve _ cb, _⟩ => some (.resolving, cb.client)
  | _ => none

def stages (events : List (Event (signature A W))) : List (Stage × File) := events.filterMap stageOf

/-- The client is at this stage: it was brought there and not yet to the next one. -/
def At (x : Stage × File) (events : List (Event (signature A W))) : Prop :=
  ∃ later, x.1.next = some later ∧ x ∈ stages events ∧ (later, x.2) ∉ stages events

/-- What may be done with a client after these operations. -/
def Obeys (events : List (Event (signature A W))) : Event (signature A W) → Prop
  | ⟨.accept, client⟩ => ∀ x ∈ stages events, x.2 ≠ client
  | ⟨.new (.parse client), _⟩ => At (.accepted, client) events
  | ⟨.add (.parse client), _⟩ => At (.made, client) events
  | ⟨.read (.parse client), _⟩ => At (.added, client) events ∧ (.decided, client) ∉ stages events
  | ⟨.remove (.parse client), _⟩ => At (.added, client) events
  | ⟨.resolve _ cb, _⟩ => At (.removed, cb.client) events
  | _ => True

/-- What the code of a thread may do with clients: what it may do next with those that are at some
stage, and the client whose handler it runs, with whether `Read` has returned a value. -/
structure Permit where
  clients : Multiset (Stage × File) := 0
  runs : Option File := none
  decided : Bool := false

/-- What an operation expects of the code that makes it. -/
def Permit.allows (γ : Permit) : Op A W → Prop
  | .new (.parse client) => (.accepted, client) ∈ γ.clients
  | .add (.parse client) => (.made, client) ∈ γ.clients
  | .read (.parse client) => γ.runs = some client ∧ γ.decided = false
  | .remove (.parse client) => γ.runs = some client
  | .resolve _ cb => (.removed, cb.client) ∈ γ.clients
  | _ => True

def Permit.after (γ : Permit) : (o : Op A W) → o.Res → Permit
  | .accept, client => { γ with clients := (.accepted, client) ::ₘ γ.clients }
  | .new (.parse client), _ =>
    { γ with clients := (.made, client) ::ₘ γ.clients.erase (.accepted, client) }
  | .add (.parse client), _ => { γ with clients := γ.clients.erase (.made, client) }
  | .read (.parse _), some _ => { γ with decided := true }
  | .remove (.parse client), _ => { clients := (.removed, client) ::ₘ γ.clients }
  | .resolve _ cb, _ => { γ with clients := γ.clients.erase (.removed, cb.client) }
  | _, _ => γ

/-- Where clients are. -/
inductive Place
  | thread (t : Thread)
  | scheduled (l : LoopId)
  | registered (client : File)
  deriving DecidableEq

def Function.clients : Function → List (Stage × File)
  | .add (.parse client) => [(.made, client)]
  | .add (.connect _ _) | .new _ _ => []

def places (w : World (signature A W) Thread (Recorded A W)) (γ : Thread → Permit) :
    Place → Multiset (Stage × File)
  | .thread t => (γ t).clients
  | .scheduled l => (w.pipes l).flatMap Function.clients
  | .registered client => if .parse client ∈ w.shared.1.registered then {(.added, client)} else 0

/-- Each client is in one place, which knows its stage. -/
structure Staged (w : World (signature A W) Thread (Recorded A W)) (γ : Thread → Permit) : Prop where
  owned : Owned (places w γ) (At · w.shared.2)
  runs : ∀ t client, (γ t).runs = some client →
    .parse client ∈ w.shared.1.registered ∧ t = .loop .parser
  pending : ∀ client, .parse client ∈ w.shared.1.registered →
    (.decided, client) ∈ stages w.shared.2 →
      (γ (.loop .parser)).runs = some client ∧ (γ (.loop .parser)).decided = true
  numbered : ∀ x ∈ stages w.shared.2, x.2.serial < w.shared.1.serials
  obeyed : Throughout Obeys w.shared.2

/-- A client goes from stage to stage, one at a time. -/
def staging (A W : Type) : Discipline (signature A W) Thread (Recorded A W) Permit where
  inv := Staged
  rests _ γ := γ.decided = false
  pre _ γ o := γ.allows o
  post _ γ o r γ' := γ' = γ.after o r
  locks _ γ _ γ' := γ' = γ
  unlocks _ γ _ γ' := γ' = γ
  schedules _ γ _ f γ' :=
    (f.clients : Multiset (Stage × File)) ≤ γ.clients ∧
      γ' = { γ with clients := γ.clients - f.clients }
  calls _ _ _ := True

section Rules

variable {t : Thread} {γ : Permit} {next : Code A W}

@[simp] theorem staging_ret : (staging A W).Follows t γ .ret ↔ γ.decided = false := Iff.rfl

theorem staging_op {o : Op A W} {next : o.Res → Code A W} (allowed : γ.allows o)
    (after : ∀ r, (staging A W).Follows t (γ.after o r) (next r)) :
    (staging A W).Follows t γ (.op o next) := by
  refine ⟨allowed, ?_⟩
  rintro r γ' rfl
  exact after r

@[simp] theorem staging_lock {m : Mutex} :
    (staging A W).Follows t γ (.lock m next) ↔ (staging A W).Follows t γ next := by
  constructor
  · rintro ⟨γ', rfl, follows⟩
    exact follows
  · exact fun follows => ⟨γ, rfl, follows⟩

@[simp] theorem staging_unlock {m : Mutex} :
    (staging A W).Follows t γ (.unlock m next) ↔ (staging A W).Follows t γ next := by
  constructor
  · rintro ⟨γ', rfl, follows⟩
    exact follows
  · exact fun follows => ⟨γ, rfl, follows⟩

@[simp] theorem staging_call {c : Called} :
    (staging A W).Follows t γ (.call c next) ↔ (staging A W).Follows t γ next :=
  ⟨fun follows => follows.2, fun follows => ⟨trivial, follows⟩⟩

end Rules

section Code

variable {self : Thread} {γ : Permit} {next : Code A W}

/-- A client that has a handler is given to the parser. -/
theorem staging_add {client : File} {others : Multiset (Stage × File)}
    (given : γ.clients = (.made, client) ::ₘ others)
    (after : (staging A W).Follows self { γ with clients := others } next) :
    (staging A W).Follows self γ (scheduleOrRun self .parser (.add (.parse client)) next) := by
  unfold scheduleOrRun
  split
  · apply staging_op
    · show _ ∈ γ.clients
      rw [given]
      exact Multiset.mem_cons_self _ _
    · intro _
      show (staging A W).Follows self { γ with clients := γ.clients.erase (.made, client) } next
      rwa [given, Multiset.erase_cons_head]
  · refine ⟨{ γ with clients := γ.clients - {(.made, client)} }, ⟨?_, rfl⟩, ?_⟩
    · rw [given]
      exact Multiset.singleton_le.mpr (Multiset.mem_cons_self _ _)
    · rwa [Multiset.sub_singleton, given, Multiset.erase_cons_head]

/-- Other functions have nothing to do with clients that are waiting to be parsed. -/
theorem staging_scheduleOrRun {l : LoopId} {f : Function} (other : f.clients = [])
    (after : (staging A W).Follows self γ next) :
    (staging A W).Follows self γ (scheduleOrRun self l f next) := by
  unfold scheduleOrRun
  split
  · cases f with
    | add eh =>
        cases eh with
        | parse client => cases other
        | connect server client => exact staging_op trivial fun _ => after
    | new client server => exact staging_op trivial fun _ => after
  · refine ⟨{ γ with clients := γ.clients - f.clients }, ⟨?_, rfl⟩, ?_⟩
    · rw [other]
      exact Multiset.zero_le _
    · rw [other]
      show (staging A W).Follows self { γ with clients := γ.clients - 0 } next
      rwa [Multiset.sub_zero]

theorem staging_connected (client : File) (server : Option File)
    (after : (staging A W).Follows self γ next) :
    (staging A W).Follows self γ (connected self client server next) := by
  cases server with
  | none => exact staging_op trivial fun _ => after
  | some server => exact staging_scheduleOrRun rfl after

theorem staging_connect (addr : Cursor A) (client : File)
    (after : (staging A W).Follows self γ next) :
    (staging A W).Follows self γ (connect self addr client next) := by
  refine staging_op trivial ?_
  intro r
  cases r with
  | none => exact staging_call.mpr (staging_connected client none after)
  | some server =>
      refine staging_op trivial ?_
      intro ok
      cases ok with
      | false =>
          refine staging_op trivial ?_
          intro _
          exact staging_call.mpr (staging_connected client none after)
      | true =>
          refine staging_op trivial ?_
          intro _
          exact staging_scheduleOrRun rfl after

theorem staging_resolved (cb : Callback) (addr : Option (Cursor A))
    (after : (staging A W).Follows self γ next) :
    (staging A W).Follows self γ (resolved self cb addr next) := by
  cases addr with
  | none =>
      refine staging_op trivial ?_
      intro _
      exact staging_op trivial fun _ => after
  | some addr => exact staging_connect addr cb.client after

theorem staging_resolve (host_port : HostPort) (cb : Callback) {others : Multiset (Stage × File)}
    (given : γ.clients = (.removed, cb.client) ::ₘ others)
    (after : (staging A W).Follows self { γ with clients := others } next) :
    (staging A W).Follows self γ (resolve self host_port cb next) := by
  apply staging_op
  · show _ ∈ γ.clients
    rw [given]
    exact Multiset.mem_cons_self _ _
  intro i
  show (staging A W).Follows self { γ with clients := γ.clients.erase (.removed, cb.client) } _
  rw [given, Multiset.erase_cons_head]
  apply staging_lock.mpr
  refine staging_op trivial ?_
  intro call
  cases call with
  | locking | done => exact staging_unlock.mpr after
  | scheduling =>
      apply staging_unlock.mpr
      apply staging_lock.mpr
      exact staging_op trivial fun _ => staging_unlock.mpr after
  | calling answer =>
      apply staging_unlock.mpr
      apply staging_call.mpr
      exact staging_op trivial fun _ => staging_resolved cb answer.addr after

/-- A handler that is finished is removed, and what it has read is resolved or not. -/
theorem staging_parseFinish (allowed_ports : Finset HostPort) (client : File)
    (host_port : HostPort) (runs : γ.runs = some client) :
    (staging A W).Follows self γ (parseFinish self allowed_ports client host_port) := by
  have done : ∀ (clients : Multiset (Stage × File)) (i : ℕ),
      (staging A W).Follows self { clients }
        (.op (.leave i) fun _ => .op (.decRef (.parse client)) fun _ => .ret) := by
    intro clients i
    refine staging_op trivial ?_
    intro _
    exact staging_op trivial fun _ => staging_ret.mpr rfl
  refine staging_op runs ?_
  intro _
  apply staging_call.mpr
  refine staging_op trivial ?_
  intro i
  unfold parsed
  split
  · exact staging_op trivial fun _ => done _ i
  · exact staging_resolve _ _ rfl (done _ i)

theorem staging_stays {eh : Handler} (undecided : γ.decided = false) :
    (staging A W).Follows self γ (.op (.decRef eh) fun _ => .ret) :=
  staging_op trivial fun _ => staging_ret.mpr undecided

theorem staging_connectFinish (server client : File) (ok : Bool) (undecided : γ.decided = false) :
    (staging A W).Follows self γ (connectFinish self server client ok) := by
  refine staging_op trivial ?_
  intro _
  cases ok with
  | true => exact staging_call.mpr (staging_connected client (some server) (staging_stays undecided))
  | false =>
      refine staging_op trivial ?_
      intro _
      exact staging_call.mpr (staging_connected client none (staging_stays undecided))

/-- The client whose handler is called. -/
def Handler.client : Handler → Option File
  | .parse client => some client
  | .connect _ _ => none

theorem staging_onEvent (allowed_ports : Finset HostPort) (events : Events) (eh : Handler)
    (runs : γ.runs = eh.client) (undecided : γ.decided = false) :
    (staging A W).Follows self γ (onEvent self allowed_ports events eh) := by
  cases eh with
  | parse client =>
      show (staging A W).Follows self γ (parseOnEvent self allowed_ports client events)
      unfold parseOnEvent
      split
      · exact staging_parseFinish allowed_ports client [] runs
      · split
        · have allowed : γ.runs = some client ∧ γ.decided = false := ⟨runs, undecided⟩
          refine staging_op allowed ?_
          intro request
          cases request with
          | none => exact staging_stays undecided
          | some host_port => exact staging_parseFinish allowed_ports client host_port runs
        · exact staging_stays undecided
  | connect server client =>
      show (staging A W).Follows self γ (connectOnEvent self server client events)
      unfold connectOnEvent
      split
      · exact staging_op trivial fun ok => staging_connectFinish server client ok undecided
      · exact staging_stays undecided

theorem staging_onTimeout (allowed_ports : Finset HostPort) (eh : Handler)
    (runs : γ.runs = eh.client) (undecided : γ.decided = false) :
    (staging A W).Follows self γ (onTimeout self allowed_ports eh) := by
  cases eh with
  | parse client => exact staging_parseFinish allowed_ports client [] runs
  | connect server client => exact staging_connectFinish server client false undecided

theorem staging_callAll (j : ℕ) (callbacks : List Callback) (addr : Option (Cursor A))
    (after : (staging A W).Follows self γ next) :
    (staging A W).Follows self γ (callAll self j callbacks addr next) := by
  induction callbacks generalizing addr with
  | nil => exact after
  | cons cb rest ih =>
      apply staging_call.mpr
      refine staging_op trivial ?_
      intro _
      exact staging_resolved cb addr (ih (Dns.advance addr))

theorem staging_answerAll (j : ℕ) (after : Dns.Worker Callback A) (undecided : γ.decided = false) :
    (staging A W).Follows self γ (answerAll self j after) := by
  have last : (staging A W).Follows self γ (scheduleNext j) := by
    apply staging_lock.mpr
    refine staging_op trivial ?_
    intro _
    exact staging_unlock.mpr (staging_ret.mpr undecided)
  cases after with
  | calling it callbacks addr index now seen =>
      apply staging_unlock.mpr
      apply staging_callAll j callbacks addr
      apply staging_lock.mpr
      refine staging_op trivial ?_
      intro _
      exact staging_unlock.mpr last
  | scheduling it next => exact staging_unlock.mpr last
  | locking | resolving | resolved | recording | done | dangling =>
      exact staging_unlock.mpr (staging_ret.mpr undecided)

theorem staging_processCacheEntry (j : ℕ) (undecided : γ.decided = false) :
    (staging A W).Follows self γ (processCacheEntry self j) := by
  apply staging_lock.mpr
  refine staging_op trivial ?_
  intro after
  cases after with
  | resolving it =>
      apply staging_unlock.mpr
      refine staging_op trivial ?_
      intro _
      refine staging_op trivial ?_
      intro _
      apply staging_lock.mpr
      exact staging_op trivial fun after => staging_answerAll j after undecided
  | locking | resolved | recording | calling | scheduling | done | dangling =>
      exact staging_answerAll j _ undecided

theorem staging_next (undecided : γ.decided = false) :
    (staging A W).Follows self γ (Proxy.next self) := by
  apply staging_lock.mpr
  refine staging_op trivial ?_
  intro started
  cases started with
  | none => exact staging_unlock.mpr (staging_ret.mpr undecided)
  | some j => exact staging_unlock.mpr (staging_processCacheEntry j undecided)

theorem staging_acceptNext (undecided : γ.decided = false) :
    (staging A W).Follows self γ (acceptNext self) := by
  refine staging_op trivial ?_
  intro client
  refine staging_op (Multiset.mem_cons_self _ _) ?_
  intro _
  exact staging_add rfl (staging_ret.mpr undecided)

theorem staging_body (l : LoopId) (f : Function) (undecided : γ.decided = false) :
    (staging A W).Follows (.loop l) { γ with clients := f.clients + γ.clients } (run f .ret) := by
  cases f with
  | add eh =>
      cases eh with
      | parse client =>
          refine staging_op (Multiset.mem_cons_self _ _) ?_
          exact fun _ => staging_ret.mpr undecided
      | connect server client => exact staging_op trivial fun _ => staging_ret.mpr undecided
  | new client server => exact staging_op trivial fun _ => staging_ret.mpr undecided

/-- An idle thread goes on with the handler of a client or with none. -/
theorem staging_wake {s : Shared A W} {opt : Options} {u : Thread} {code : Code A W}
    (woken : Woken opt s u code) (undecided : γ.decided = false) :
    ∃ runs, (staging A W).Follows u { γ with runs } code ∧
      ∀ client, runs = some client → .parse client ∈ s.registered ∧ u = .loop .parser := by
  have client_of : ∀ {eh : Handler}, eh ∈ s.registered → ∀ client, eh.client = some client →
      .parse client ∈ s.registered ∧ Thread.loop eh.loop = .loop .parser := by
    intro eh member client same
    cases eh with
    | parse other =>
        cases same
        exact ⟨member, rfl⟩
    | connect server other => cases same
  cases woken with
  | accepts => exact ⟨none, staging_acceptNext undecided, by simp⟩
  | dispatches eh events member =>
      exact ⟨eh.client, staging_onEvent _ events eh rfl undecided, client_of member⟩
  | expires eh member =>
      exact ⟨eh.client, staging_onTimeout _ eh rfl undecided, client_of member⟩
  | links | ticks =>
      exact ⟨none, staging_op trivial fun _ => staging_ret.mpr undecided, by simp⟩
  | works => exact ⟨none, staging_next undecided, by simp⟩

end Code

section Stages

variable {events : List (Event (signature A W))} {e : Event (signature A W)} {client : File}
  {m n : Stage}

theorem stages_append : stages (events ++ [e]) = stages events ++ (stageOf e).toList := by
  rw [stages, List.filterMap_append]
  rfl

theorem stages_quiet (quiet : stageOf e = none) : stages (events ++ [e]) = stages events := by
  rw [stages_append, quiet]
  exact List.append_nil _

theorem mem_stages_next {x : Stage × File} (stage : stageOf e = some (n, client)) :
    x ∈ stages (events ++ [e]) ↔ x ∈ stages events ∨ x = (n, client) := by
  rw [stages_append, stage, Option.toList_some, List.mem_append, List.mem_singleton]

/-- What is done to a client comes after what has to come before. -/
theorem Obeys.passed (needs : n.needs = some m) (stage : stageOf e = some (n, client))
    (obeys : Obeys events e) : At (m, client) events := by
  unfold stageOf at stage
  split at stage
  all_goals cases stage
  all_goals cases needs
  all_goals first | exact obeys | exact obeys.1

theorem At.not_next (goes : m.next = some n) (before : At (m, client) events) :
    (n, client) ∉ stages events := by
  obtain ⟨later, same, _, absent⟩ := before
  obtain rfl : later = n := Option.some.inj (same.symm.trans goes)
  exact absent

/-- What has come about does not come again. -/
theorem Obeys.fresh (stage : stageOf e = some (n, client)) (obeys : Obeys events e) :
    (n, client) ∉ stages events := by
  unfold stageOf at stage
  split at stage
  all_goals cases stage
  · exact fun member => obeys _ member rfl
  · exact At.not_next rfl obeys
  · exact At.not_next rfl obeys
  · exact obeys.2
  · exact At.not_next rfl obeys
  · exact At.not_next rfl obeys

/-- A client has been at every stage before. -/
theorem passed_before (obeyed : Throughout Obeys events) (needs : n.needs = some m)
    (passed : (n, client) ∈ stages events) : (m, client) ∈ stages events := by
  obtain ⟨e, member, stage⟩ := List.mem_filterMap.mp passed
  obtain ⟨front, back, rfl⟩ := List.append_of_mem member
  obtain ⟨_, _, before, _⟩ := (obeyed front e back rfl).passed needs stage
  rw [stages, List.filterMap_append]
  exact List.mem_append_left _ before

/-- A client that was accepted waits for its handler. -/
theorem at_accepted (stage : stageOf e = some (.accepted, client))
    (new : ∀ x ∈ stages events, x.2 ≠ client) {y : Stage × File} :
    At y (events ++ [e]) ↔ y = (.accepted, client) ∨ At y events := by
  unfold At
  simp only [mem_stages_next stage]
  constructor
  · rintro ⟨later, goes, member | same, absent⟩
    · exact .inr ⟨later, goes, member, fun passed => absent (.inl passed)⟩
    · exact .inl same
  · rintro (rfl | ⟨later, goes, member, absent⟩)
    · refine ⟨.made, rfl, .inr rfl, ?_⟩
      rintro (passed | same)
      · exact new _ passed rfl
      · cases same
    · refine ⟨later, goes, .inl member, ?_⟩
      rintro (passed | same)
      · exact absent passed
      · obtain ⟨rfl, -⟩ := Prod.mk.inj same
        exact Stage.next_ne (.inl rfl) goes

/-- A client that has gone on is at the next stage, if that is not the last one. -/
theorem at_moved (obeyed : Throughout Obeys events) (stage : stageOf e = some (n, client))
    (goes : m.next = some n) (before : At (m, client) events) {y : Stage × File} :
    At y (events ++ [e]) ↔
      n.next ≠ none ∧ y = (n, client) ∨ At y events ∧ y ≠ (m, client) := by
  obtain ⟨_, goes', _, new⟩ := before
  obtain rfl : _ = n := Option.some.inj (goes'.symm.trans goes)
  constructor
  · intro now
    obtain ⟨later, after, member, absent⟩ := now
    rw [mem_stages_next stage] at member absent
    rcases member with member | rfl
    · refine .inr ⟨⟨later, after, member, fun passed => absent (.inl passed)⟩, ?_⟩
      rintro rfl
      cases after.symm.trans goes
      exact absent (.inr rfl)
    · refine .inl ⟨?_, rfl⟩
      rw [after]
      simp
  · rintro (⟨more, rfl⟩ | ⟨⟨later, after, member, absent⟩, different⟩)
    · obtain ⟨later, after⟩ := Option.ne_none_iff_exists'.mp more
      refine ⟨later, after, (mem_stages_next stage).mpr (.inr rfl), ?_⟩
      rw [mem_stages_next stage]
      rintro (passed | same)
      · exact new (passed_before obeyed (Stage.needs_of_next after) passed)
      · obtain ⟨rfl, -⟩ := Prod.mk.inj same
        cases later <;> cases after
    · refine ⟨later, after, (mem_stages_next stage).mpr (.inl member), ?_⟩
      rw [mem_stages_next stage]
      rintro (passed | same)
      · exact absent passed
      · obtain ⟨rfl, rfl⟩ := Prod.mk.inj same
        obtain ⟨l, c⟩ := y
        have same := (Stage.needs_of_next after).symm.trans (Stage.needs_of_next goes)
        obtain rfl : l = m := Option.some.inj same
        exact different rfl

/-- What `Read` has decided does not bring a client on. -/
theorem at_decided (stage : stageOf e = some (.decided, client)) {y : Stage × File} :
    At y (events ++ [e]) ↔ At y events := by
  unfold At
  simp only [mem_stages_next stage]
  constructor
  · rintro ⟨later, goes, member | rfl, absent⟩
    · exact ⟨later, goes, member, fun passed => absent (.inl passed)⟩
    · cases goes
  · rintro ⟨later, goes, member, absent⟩
    refine ⟨later, goes, .inl member, ?_⟩
    rintro (passed | same)
    · exact absent passed
    · obtain ⟨rfl, -⟩ := Prod.mk.inj same
      exact Stage.next_ne (.inr rfl) goes

end Stages

section Keeps

variable {opt : Options} {k : Kernel W} {w : World (signature A W) Thread (Recorded A W)}
  {γ : Thread → Permit} {t : Thread} {γ' : Permit} {o : Op A W} {r : o.Res} {s : Shared A W}

theorem places_self {v : World (signature A W) Thread (Recorded A W)} :
    places v (Function.update γ t γ') (.thread t) = γ'.clients := by
  show (Function.update γ t γ' t).clients = _
  rw [Function.update_self]

theorem places_thread {v : World (signature A W) Thread (Recorded A W)} {u : Thread}
    (other : u ≠ t) : places v (Function.update γ t γ') (.thread u) = (γ u).clients := by
  show (Function.update γ t γ' u).clients = _
  rw [Function.update_of_ne other]

theorem places_registered (ran : Ran opt k w.shared.1 o r s) {h : List (Event (signature A W))}
    {δ : Thread → Permit} {client : File} (added : o ≠ .add (.parse client))
    (removed : o ≠ .remove (.parse client)) :
    places { w with shared := (s, h) } δ (.registered client) = places w γ (.registered client) := by
  have same : .parse client ∈ s.registered ↔ .parse client ∈ w.shared.1.registered := by
    rw [ran_member ran]
    constructor
    · rintro (adds | ⟨member, _⟩)
      · exact absurd adds added
      · exact member
    · exact fun member => .inr ⟨member, removed⟩
  show (if _ then _ else _) = (if _ then _ else _)
  simp only [same]

/-- An operation leaves clients where they are, if it is not one that moves them. -/
theorem places_others (ran : Ran opt k w.shared.1 o r s) {h : List (Event (signature A W))}
    {p : Place} (thread : p ≠ .thread t)
    (added : ∀ client, p = .registered client → o ≠ .add (.parse client))
    (removed : ∀ client, p = .registered client → o ≠ .remove (.parse client)) :
    places { w with shared := (s, h) } (Function.update γ t γ') p = places w γ p := by
  cases p with
  | thread u =>
      apply places_thread
      rintro rfl
      exact thread rfl
  | scheduled l => rfl
  | registered client => exact places_registered ran (added client rfl) (removed client rfl)

/-- The files of clients have been opened. -/
theorem Staged.opened (staged : Staged w γ) (ran : Ran opt k w.shared.1 o r s)
    (opens : ∀ n client, stageOf ⟨o, r⟩ = some (n, client) → client.serial < s.serials) :
    ∀ x ∈ stages (w.shared.2 ++ [⟨o, r⟩]), x.2.serial < s.serials := by
  intro x member
  rw [stages_append] at member
  rcases List.mem_append.mp member with member | member
  · exact Nat.lt_of_lt_of_le (staged.numbered x member) (ran_serials ran)
  · exact opens x.1 x.2 (Option.mem_toList.mp member)

/-- Handlers that run are registered as long as they are not removed. -/
theorem Staged.still (staged : Staged w γ) (ran : Ran opt k w.shared.1 o r s)
    (kept : ∀ client, o ≠ .remove (.parse client)) {u : Thread} {client : File}
    (runs : (γ u).runs = some client) : .parse client ∈ s.registered ∧ u = .loop .parser := by
  obtain ⟨member, parser⟩ := staged.runs u client runs
  exact ⟨(ran_member ran).mpr (.inr ⟨member, kept client⟩), parser⟩

/-- Most operations have nothing to do with the stages of clients. -/
theorem Staged.quiet (staged : Staged w γ) (ran : Ran opt k w.shared.1 o r s)
    (stage : stageOf ⟨o, r⟩ = none) (obeys : Obeys w.shared.2 ⟨o, r⟩)
    (added : ∀ client, o ≠ .add (.parse client))
    (removed : ∀ client, o ≠ .remove (.parse client)) :
    Staged { w with shared := (s, w.shared.2 ++ [⟨o, r⟩]) } γ := by
  refine ⟨?_, fun u client => staged.still ran removed, ?_, staged.opened ran ?_,
    staged.obeyed.next obeys⟩
  · apply staged.owned.congr
    · intro p
      cases p with
      | thread u => rfl
      | scheduled l => rfl
      | registered client => exact places_registered ran (added client) (removed client)
    · intro x
      show At x _ ↔ At x _
      unfold At
      rw [stages_quiet stage]
  · intro client member decided
    rw [stages_quiet stage] at decided
    have before := (ran_member ran).mp member
    exact staged.pending client (before.resolve_left (added client)).1 decided
  · intro n client same
    rw [stage] at same
    cases same

/-- The code may go on with other clients in the same handler. -/
theorem Staged.still_running (staged : Staged w γ) (ran : Ran opt k w.shared.1 o r s)
    (kept : ∀ client, o ≠ .remove (.parse client)) (same : γ'.runs = (γ t).runs) (u : Thread)
    (client : File) (runs : (Function.update γ t γ' u).runs = some client) :
    .parse client ∈ s.registered ∧ u = .loop .parser := by
  by_cases here : u = t
  · subst here
    rw [Function.update_self, same] at runs
    exact staged.still ran kept runs
  · rw [Function.update_of_ne here] at runs
    exact staged.still ran kept runs

theorem update_pending {u : Thread} {client : File} (runs : γ'.runs = (γ t).runs)
    (same : γ'.decided = (γ t).decided)
    (before : (γ u).runs = some client ∧ (γ u).decided = true) :
    (Function.update γ t γ' u).runs = some client ∧ (Function.update γ t γ' u).decided = true := by
  by_cases here : u = t
  · subst here
    rwa [Function.update_self, runs, same]
  · rwa [Function.update_of_ne here]

theorem Staged.still_pending (staged : Staged w γ) (ran : Ran opt k w.shared.1 o r s)
    {n : Stage} {client : File} (stage : stageOf ⟨o, r⟩ = some (n, client)) (read : n ≠ .decided)
    (added : ∀ client, o ≠ .add (.parse client)) (runs : γ'.runs = (γ t).runs)
    (same : γ'.decided = (γ t).decided) (c : File) (member : .parse c ∈ s.registered)
    (decided : (.decided, c) ∈ stages (w.shared.2 ++ [⟨o, r⟩])) :
    (Function.update γ t γ' (.loop .parser)).runs = some c ∧
      (Function.update γ t γ' (.loop .parser)).decided = true := by
  have before := ((ran_member ran).mp member).resolve_left (added c)
  have decided := ((mem_stages_next stage).mp decided).resolve_right (by simp [read.symm])
  exact update_pending runs same (staged.pending c before.1 decided)

theorem Staged.accepted {client : File} (staged : Staged w γ)
    (ran : Ran opt k w.shared.1 .accept client s) :
    Staged { w with shared := (s, w.shared.2 ++ [⟨.accept, client⟩]) }
      (Function.update γ t { γ t with clients := (.accepted, client) ::ₘ (γ t).clients }) := by
  have obeys : Obeys w.shared.2 (⟨.accept, client⟩ : Event (signature A W)) := by
    rintro x member rfl
    have less := staged.numbered x member
    cases ran with
    | accept opened =>
        obtain ⟨_, same, _⟩ := open_eq opened
        rw [same] at less
        exact Nat.lt_irrefl _ less
  have stage : stageOf (⟨.accept, client⟩ : Event (signature A W)) = some (.accepted, client) := rfl
  refine ⟨?_, ?_, ?_, staged.opened ran ?_, staged.obeyed.next obeys⟩
  · apply staged.owned.gain (b := .thread t) (x := (.accepted, client))
    · rintro ⟨_, _, member, _⟩
      exact obeys _ member rfl
    · exact places_self
    · exact fun p other => places_others ran other (by simp) (by simp)
    · exact fun y => at_accepted stage obeys
  · exact staged.still_running ran (by simp) rfl
  · exact staged.still_pending ran stage (by simp) (by simp) rfl rfl
  · intro n c same
    cases same
    cases ran with
    | accept opened =>
        obtain ⟨_, rfl, rfl⟩ := open_eq opened
        exact Nat.lt_succ_self _

/-- A client that goes on was there. -/
theorem Staged.moved (staged : Staged w γ) (ran : Ran opt k w.shared.1 o r s) {m n : Stage}
    {client : File} (stage : stageOf ⟨o, r⟩ = some (n, client))
    (before : At (m, client) w.shared.2) :
    ∀ x ∈ stages (w.shared.2 ++ [⟨o, r⟩]), x.2.serial < s.serials := by
  apply staged.opened ran
  intro l c same
  obtain ⟨rfl, rfl⟩ := Prod.mk.inj (Option.some.inj (stage.symm.trans same))
  obtain ⟨_, _, member, _⟩ := before
  exact Nat.lt_of_lt_of_le (staged.numbered _ member) (ran_serials ran)

theorem Staged.of_mem (staged : Staged w γ) {x : Stage × File} (mine : x ∈ (γ t).clients) :
    At x w.shared.2 := staged.owned.of_mem (o := .thread t) mine

theorem Staged.made {client : File} (staged : Staged w γ)
    (ran : Ran opt k w.shared.1 (.new (.parse client)) () s)
    (mine : (.accepted, client) ∈ (γ t).clients) :
    Staged { w with shared := (s, w.shared.2 ++ [⟨.new (.parse client), ()⟩]) }
      (Function.update γ t { γ t with
        clients := (.made, client) ::ₘ (γ t).clients.erase (.accepted, client) }) := by
  have before := staged.of_mem mine
  have stage : stageOf (⟨.new (.parse client), ()⟩ : Event (signature A W)) =
    some (.made, client) := rfl
  refine ⟨?_, ?_, ?_, staged.moved ran stage before, staged.obeyed.next before⟩
  · apply staged.owned.exchange (a := .thread t) (b := .thread t) (x := (.accepted, client))
      (y := (.made, client)) ((γ t).clients.erase (.accepted, client))
    · exact fun there => At.not_next rfl before there.choose_spec.2.1
    · exact (Multiset.cons_erase mine).symm
    · rw [Function.update_self]
      exact places_self
    · intro p other
      rw [Function.update_of_ne other]
      exact places_others ran other (by simp) (by simp)
    · intro y
      rw [at_moved staged.obeyed stage rfl before]
      simp [Stage.next]
  · exact staged.still_running ran (by simp) rfl
  · exact staged.still_pending ran stage (by simp) (by simp) rfl rfl

theorem Staged.added {client : File} (staged : Staged w γ)
    (ran : Ran opt k w.shared.1 (.add (.parse client)) () s)
    (mine : (.made, client) ∈ (γ t).clients) :
    Staged { w with shared := (s, w.shared.2 ++ [⟨.add (.parse client), ()⟩]) }
      (Function.update γ t { γ t with clients := (γ t).clients.erase (.made, client) }) := by
  have before := staged.of_mem mine
  have stage : stageOf (⟨.add (.parse client), ()⟩ : Event (signature A W)) =
    some (.added, client) := rfl
  have absent : .parse client ∉ w.shared.1.registered := by
    cases ran with
    | add absent => exact absent
  refine ⟨?_, ?_, ?_, staged.moved ran stage before, staged.obeyed.next before⟩
  · apply staged.owned.exchange (a := .thread t) (b := .registered client) (x := (.made, client))
      (y := (.added, client)) ((γ t).clients.erase (.made, client))
    · exact fun there => At.not_next rfl before there.choose_spec.2.1
    · exact (Multiset.cons_erase mine).symm
    · rw [Function.update_of_ne (by simp)]
      show (if _ then _ else _) = _ ::ₘ (if _ then _ else _)
      rw [if_neg absent, if_pos ((ran_member ran).mpr (.inl rfl))]
      rfl
    · intro p other
      by_cases here : p = .thread t
      · subst here
        rw [Function.update_self]
        exact places_self
      · rw [Function.update_of_ne here]
        apply places_others ran here
        · rintro c rfl same
          cases same
          exact other rfl
        · simp
    · intro y
      rw [at_moved staged.obeyed stage rfl before]
      simp [Stage.next]
  · exact staged.still_running ran (by simp) rfl
  · intro c member decided
    have decided := ((mem_stages_next stage).mp decided).resolve_right (by simp)
    refine update_pending rfl rfl ?_
    rcases (ran_member ran).mp member with same | ⟨member, _⟩
    · cases same
      exact absurd (passed_before staged.obeyed rfl decided) (At.not_next rfl before)
    · exact staged.pending c member decided

theorem Staged.read {client : File} {host_port : HostPort} (staged : Staged w γ)
    (ran : Ran opt k w.shared.1 (.read (.parse client)) (some host_port) s)
    (runs : (γ t).runs = some client)
    (obeys : Obeys w.shared.2 (⟨.read (.parse client), some host_port⟩ : Event (signature A W))) :
    Staged { w with shared := (s, w.shared.2 ++ [⟨.read (.parse client), some host_port⟩]) }
      (Function.update γ t { γ t with decided := true }) := by
  have stage : stageOf (⟨.read (.parse client), some host_port⟩ : Event (signature A W)) =
    some (.decided, client) := rfl
  refine ⟨?_, ?_, ?_, staged.moved ran stage obeys.1, staged.obeyed.next obeys⟩
  · apply staged.owned.congr
    · intro p
      by_cases here : p = .thread t
      · subst here
        exact places_self
      · exact places_others ran here (by simp) (by simp)
    · exact fun y => at_decided stage
  · exact staged.still_running ran (by simp) rfl
  · intro c member decided
    have before := ((ran_member ran).mp member).resolve_left (by simp)
    obtain ⟨_, rfl⟩ := staged.runs t client runs
    rw [Function.update_self]
    rcases (mem_stages_next stage).mp decided with decided | same
    · exact ⟨(staged.pending c before.1 decided).1, rfl⟩
    · cases same
      exact ⟨runs, rfl⟩

theorem Staged.removed {client : File} (staged : Staged w γ)
    (ran : Ran opt k w.shared.1 (.remove (.parse client)) () s)
    (runs : (γ t).runs = some client) :
    Staged { w with shared := (s, w.shared.2 ++ [⟨.remove (.parse client), ()⟩]) }
      (Function.update γ t { clients := (.removed, client) ::ₘ (γ t).clients }) := by
  obtain ⟨member, rfl⟩ := staged.runs t client runs
  have held : places w γ (.registered client) = (.added, client) ::ₘ 0 := if_pos member
  have before : At (.added, client) w.shared.2 := by
    apply staged.owned.of_mem (o := .registered client)
    rw [held]
    exact Multiset.mem_cons_self _ _
  have stage : stageOf (⟨.remove (.parse client), ()⟩ : Event (signature A W)) =
    some (.removed, client) := rfl
  have gone : .parse client ∉ s.registered := by
    rw [ran_member ran]
    simp
  have others : ∀ c, .parse c ∈ s.registered → .parse c ∈ w.shared.1.registered ∧ c ≠ client := by
    intro c still
    refine ⟨(((ran_member ran).mp still).resolve_left (by simp)).1, ?_⟩
    rintro rfl
    exact gone still
  refine ⟨?_, ?_, ?_, staged.moved ran stage before, staged.obeyed.next before⟩
  · apply staged.owned.exchange (a := .registered client) (b := .thread (.loop .parser))
      (x := (.added, client)) (y := (.removed, client)) 0
    · exact fun there => At.not_next rfl before there.choose_spec.2.1
    · exact held
    · rw [Function.update_of_ne (by simp)]
      exact places_self
    · intro p other
      by_cases here : p = .registered client
      · subst here
        rw [Function.update_self]
        exact if_neg gone
      · rw [Function.update_of_ne here]
        apply places_others ran other
        · simp
        · rintro c rfl same
          cases same
          exact here rfl
    · intro y
      rw [at_moved staged.obeyed stage rfl before]
      simp [Stage.next]
  · intro u c runs'
    by_cases here : u = .loop .parser
    · subst here
      rw [Function.update_self] at runs'
      cases runs'
    · rw [Function.update_of_ne here] at runs'
      exact absurd (staged.runs u c runs').2 here
  · intro c still decided
    obtain ⟨member, different⟩ := others c still
    have decided := ((mem_stages_next stage).mp decided).resolve_right (by simp)
    have same := (staged.pending c member decided).1
    rw [runs] at same
    exact absurd (Option.some.inj same).symm different

theorem Staged.resolving {host_port : HostPort} {cb : Callback} {call : ℕ} (staged : Staged w γ)
    (ran : Ran opt k w.shared.1 (.resolve host_port cb) call s)
    (mine : (.removed, cb.client) ∈ (γ t).clients) :
    Staged { w with shared := (s, w.shared.2 ++ [⟨.resolve host_port cb, call⟩]) }
      (Function.update γ t { γ t with clients := (γ t).clients.erase (.removed, cb.client) }) := by
  have before := staged.of_mem mine
  have stage : stageOf (⟨.resolve host_port cb, call⟩ : Event (signature A W)) =
    some (.resolving, cb.client) := rfl
  refine ⟨?_, ?_, ?_, staged.moved ran stage before, staged.obeyed.next before⟩
  · apply staged.owned.drop (a := .thread t) (x := (.removed, cb.client))
    · rw [places_self]
      exact (Multiset.cons_erase mine).symm
    · exact fun p other => places_others ran other (by simp) (by simp)
    · intro y
      rw [at_moved staged.obeyed stage rfl before]
      simp [Stage.next]
  · exact staged.still_running ran (by simp) rfl
  · exact staged.still_pending ran stage (by simp) (by simp) rfl rfl

/-- What the code may do does not break the order of stages. -/
theorem Staged.ran (staged : Staged w γ) (ran : Ran opt k w.shared.1 o r s)
    (allowed : (γ t).allows o) :
    Staged { w with shared := (s, w.shared.2 ++ [⟨o, r⟩]) }
      (Function.update γ t ((γ t).after o r)) := by
  have stays : (γ t).after o r = γ t → stageOf ⟨o, r⟩ = none → Obeys w.shared.2 ⟨o, r⟩ →
      (∀ client, o ≠ .add (.parse client)) → (∀ client, o ≠ .remove (.parse client)) →
      Staged { w with shared := (s, w.shared.2 ++ [⟨o, r⟩]) }
        (Function.update γ t ((γ t).after o r)) := by
    intro same stage obeys added removed
    rw [same, Function.update_eq_self]
    exact staged.quiet ran stage obeys added removed
  cases o with
  | accept => exact staged.accepted ran
  | new eh =>
      cases eh with
      | parse client => exact staged.made ran allowed
      | connect server client => exact stays rfl rfl trivial (by simp) (by simp)
  | add eh =>
      cases eh with
      | parse client => exact staged.added ran allowed
      | connect server client => exact stays rfl rfl trivial (by simp) (by simp)
  | remove eh =>
      cases eh with
      | parse client => exact staged.removed ran allowed
      | connect server client => exact stays rfl rfl trivial (by simp) (by simp)
  | read eh =>
      cases eh with
      | parse client =>
          obtain ⟨runs, undecided⟩ := allowed
          obtain ⟨member, rfl⟩ := staged.runs t client runs
          have before : At (.added, client) w.shared.2 := by
            apply staged.owned.of_mem (o := .registered client)
            show _ ∈ (if _ then _ else _)
            rw [if_pos member]
            exact Multiset.mem_singleton_self _
          have new : (.decided, client) ∉ stages w.shared.2 := by
            intro decided
            have same := (staged.pending client member decided).2
            rw [undecided] at same
            cases same
          cases r with
          | none => exact stays rfl rfl ⟨before, new⟩ (by simp) (by simp)
          | some host_port => exact staged.read ran runs ⟨before, new⟩
      | connect server client => exact stays rfl rfl trivial (by simp) (by simp)
  | resolve host_port cb => exact staged.resolving ran allowed
  | _ => exact stays rfl rfl trivial (by simp) (by simp)

end Keeps

section Sound

variable {opt : Options} {k : Kernel W} {capacity : LoopId → ℕ}

/-- A client waits in a pipe. -/
theorem Staged.schedule {w : World (signature A W) Thread (Recorded A W)} {γ : Thread → Permit}
    (staged : Staged w γ) {t : Thread} {l : LoopId} {f : Function}
    (mine : (f.clients : Multiset (Stage × File)) ≤ (γ t).clients) :
    Staged { w with pipes := Function.update w.pipes l (w.pipes l ++ [f]) }
      (Function.update γ t { γ t with clients := (γ t).clients - f.clients }) := by
  refine ⟨?_, ?_, ?_, staged.numbered, staged.obeyed⟩
  · apply staged.owned.move (a := .thread t) (b := .scheduled l) (by simp) f.clients
    · rw [places_self]
      exact (Multiset.add_comm _ _).trans (Multiset.sub_add_cancel mine) |>.symm
    · exact Ownership.queue_push Function.clients f
    · intro p source target
      cases p with
      | thread u =>
          apply places_thread
          rintro rfl
          exact source rfl
      | scheduled m =>
          apply Ownership.queue_other
          rintro rfl
          exact target rfl
      | registered client => rfl
  · intro u client runs
    by_cases here : u = t
    · subst here
      rw [Function.update_self] at runs
      exact staged.runs u client runs
    · rw [Function.update_of_ne here] at runs
      exact staged.runs u client runs
  · intro client member decided
    exact update_pending rfl rfl (staged.pending client member decided)

theorem Staged.pop {w : World (signature A W) Thread (Recorded A W)} {γ : Thread → Permit}
    (staged : Staged w γ) {t : Thread} {l : LoopId} {f : Function} {rest : List Function}
    (pipe : w.pipes l = f :: rest) :
    Staged { w with pipes := Function.update w.pipes l rest }
      (Function.update γ t { γ t with clients := f.clients + (γ t).clients }) := by
  refine ⟨?_, ?_, ?_, staged.numbered, staged.obeyed⟩
  · apply staged.owned.move (a := .scheduled l) (b := .thread t) (by simp) f.clients
    · exact Ownership.queue_pop Function.clients pipe
    · exact places_self
    · intro p source target
      cases p with
      | thread u =>
          apply places_thread
          rintro rfl
          exact target rfl
      | scheduled m =>
          apply Ownership.queue_other
          rintro rfl
          exact source rfl
      | registered client => rfl
  · intro u client runs
    by_cases here : u = t
    · subst here
      rw [Function.update_self] at runs
      exact staged.runs u client runs
    · rw [Function.update_of_ne here] at runs
      exact staged.runs u client runs
  · intro client member decided
    exact update_pending rfl rfl (staged.pending client member decided)

theorem staging_sound :
    (staging A W).Sound (recording A opt k capacity) fun _ _ _ => True := by
  constructor
  · intro w γ t o e r shared staged allowed _ ran
    obtain ⟨ran, history⟩ := records_of_exec ran
    refine ⟨_, rfl, ?_⟩
    obtain ⟨s, _⟩ := shared
    obtain rfl : _ = w.shared.2 ++ [⟨o, r⟩] := history
    exact staged.ran ran allowed
  · rintro w γ t m _ staged rfl _
    rw [Function.update_eq_self]
    exact ⟨staged.owned, staged.runs, staged.pending, staged.numbered, staged.obeyed⟩
  · rintro w γ t m _ staged rfl _
    rw [Function.update_eq_self]
    exact ⟨staged.owned, staged.runs, staged.pending, staged.numbered, staged.obeyed⟩
  · rintro w γ t l f _ staged ⟨mine, rfl⟩
    exact staged.schedule mine
  · intro w γ l f rest staged rests pipe
    exact ⟨_, staging_body l f rests, staged.pop pipe⟩
  · intro w γ t e p staged rests woken
    obtain ⟨runs, follows, known⟩ := staging_wake (wake_cases woken) rests
    refine ⟨_, follows, staged.owned.congr ?_ fun _ => Iff.rfl, ?_, ?_, staged.numbered,
      staged.obeyed⟩
    · intro p
      cases p with
      | thread u =>
          by_cases here : u = t
          · subst here
            exact places_self
          · exact places_thread here
      | scheduled l => rfl
      | registered client => rfl
    · intro u client now
      by_cases here : u = t
      · subst here
        rw [Function.update_self] at now
        exact known client now
      · rw [Function.update_of_ne here] at now
        exact staged.runs u client now
    · intro client member decided
      have before := staged.pending client member decided
      by_cases here : Thread.loop .parser = t
      · subst here
        have undecided : (γ (.loop .parser)).decided = false := rests
        rw [before.2] at undecided
        cases undecided
      · rwa [Function.update_of_ne here]

/-- Nothing happens twice, where everything has its place in an order. -/
theorem nodup_stages {events : List (Event (signature A W))} (obeyed : Throughout Obeys events) :
    (stages events).Nodup := by
  induction events using List.reverseRecOn with
  | nil => exact List.nodup_nil
  | append_singleton front e ih =>
      have before : Throughout Obeys front := by
        intro first d rest same
        apply obeyed first d (rest ++ [e])
        rw [same, List.append_assoc]
        rfl
      have last : Obeys front e := obeyed front e [] rfl
      cases stage : stageOf e with
      | none =>
          rw [stages_quiet stage]
          exact ih before
      | some x =>
          rw [stages_append, stage]
          apply (ih before).append (List.nodup_singleton x)
          intro y member same
          obtain rfl := List.mem_singleton.mp same
          exact last.fresh stage member

/-- Every run keeps the order. -/
theorem obeyed_of_history {s : Programs.State (signature A W) Thread (Recorded A W)}
    (run : History opt k capacity s) : Throughout Obeys s.shared.2 := by
  have holds : (staging A W).Holds s := by
    refine staging_sound.reachable ?_ (fun s a _ => ?_) run
    · rintro ⟨⟨⟨shared, events⟩, holder, pipes⟩, threads⟩ ⟨rfl, clock, forwarder, _, same⟩
      cases same
      refine ⟨fun _ => {}, ⟨.empty ?_ ?_, by simp, by simp, ?_, throughout_nil⟩, fun _ => rfl⟩
      · intro p
        cases p <;> rfl
      · rintro x ⟨_, _, member, _⟩
        cases member
      · intro x member
        cases member
    · cases a with
      | run t e => exact fun _ _ _ => trivial
      | pop | wake => trivial
  obtain ⟨γ, staged, _⟩ := holds
  exact staged.obeyed

/-- Each client is accepted once, gets one handler, which the parser is given once; `Read` is called
as long as the handler is there and has decided nothing; the handler is removed once, and only then
the resolver is given the client, once. All this comes in order, whatever other threads do. -/
theorem clients_in_order {s : Programs.State (signature A W) Thread (Recorded A W)}
    (run : History opt k capacity s) :
    Throughout Obeys s.shared.2 ∧ (stages s.shared.2).Nodup := by
  have obeyed := obeyed_of_history run
  exact ⟨obeyed, nodup_stages obeyed⟩

theorem clients_in_order_tunneled :
    stages tunneledHistory.shared.2 = [(.accepted, ⟨5, 0⟩), (.made, ⟨5, 0⟩), (.added, ⟨5, 0⟩),
      (.decided, ⟨5, 0⟩), (.removed, ⟨5, 0⟩), (.resolving, ⟨5, 0⟩)] ∧
    Throughout Obeys tunneledHistory.shared.2 ∧ (stages tunneledHistory.shared.2).Nodup :=
  ⟨by decide +kernel, clients_in_order tunneledHistory_run⟩

end Sound

end Hcproxy.Proxy
