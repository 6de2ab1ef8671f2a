import Hcproxy.ProxyAccounts
import Hcproxy.ProxyDeadlock

set_option autoImplicit false

namespace Hcproxy.Proxy

open Hcproxy.Forwarder (Bytes Kernel Sock Watched)
open Ownership (Owned Uses)
open Programs
open Ring (Cursor)

variable {A W : Type} {opt : Options} {k : Kernel W}

section Links

variable {w : World (signature A W) Thread (Shared A W)} {γ : Thread → Hand}

/-- The sockets that links have closed. -/
theorem mem_closedLinks {forwarder : Forwarder.State W} {links : List (File × File)} {file : File} :
    file ∈ closedLinks forwarder links ↔
      ∃ h, linkFile links h = some file ∧ forwarder.isClosed h = true := by
  simp only [closedLinks, List.mem_flatMap, List.mem_range]
  constructor
  · rintro ⟨i, inside, member⟩
    split at member
    · rename_i client server pair link found
      rcases List.mem_append.mp member with member | member
      · split at member
        · rename_i closed
          refine ⟨(i, .client), ?_, ?_⟩
          · rw [linkFile, link, List.mem_singleton.mp member]
            rfl
          · rw [Forwarder.State.isClosed, found]
            exact decide_eq_true closed
        · cases member
      · split at member
        · rename_i closed
          refine ⟨(i, .server), ?_, ?_⟩
          · rw [linkFile, link, List.mem_singleton.mp member]
            rfl
          · rw [Forwarder.State.isClosed, found]
            exact decide_eq_true closed
        · cases member
    · cases member
  · rintro ⟨⟨i, x⟩, known, closed⟩
    obtain ⟨⟨client, server⟩, link, same⟩ := Option.map_eq_some_iff.mp known
    have inside := (List.getElem?_eq_some_iff.mp link).1
    cases found : forwarder.pairs[i]? with
    | none =>
        rw [Forwarder.State.isClosed, found] at closed
        cases closed
    | some pair =>
        rw [Forwarder.State.isClosed, found] at closed
        have closed := of_decide_eq_true closed
        refine ⟨i, inside, ?_⟩
        have link : links[i]? = some (client, server) := link
        rw [link, found]
        cases x with
        | client =>
            have closed : 0 < pair.client.closes := closed
            subst same
            simp [closed]
        | server =>
            have closed : 0 < pair.server.closes := closed
            subst same
            simp [closed]

theorem owners_link {h : Sock} {file : File} (known : linkFile w.shared.links h = some file)
    (isOpen : w.shared.forwarder.isClosed h = false) : owners w γ (.link h) = {file} := by
  simp only [owners, linkHolds, known, isOpen, Bool.false_eq_true, ↓reduceIte]

/-- Links have closed some of their sockets. -/
theorem owned_linked (owned : Owned (owners w γ) (· ∈ w.shared.files)) (numbered : Numbered w.shared)
    {forwarder : Forwarder.State W}
    (still : ∀ h, w.shared.forwarder.isClosed h = true → forwarder.isClosed h = true) :
    Owned (owners { w with shared := w.shared.linked forwarder w.shared.links } γ)
      (· ∈ (w.shared.linked forwarder w.shared.links).files) := by
  have isOpen : ∀ {h file}, linkFile w.shared.links h = some file → file ∈ w.shared.files →
      w.shared.forwarder.isClosed h = false := by
    intro h file known member
    cases closed : w.shared.forwarder.isClosed h with
    | false => rfl
    | true => exact absurd member (numbered.gone h file known closed)
  have owns : ∀ {h file}, linkFile w.shared.links h = some file → file ∈ w.shared.files →
      file ∈ owners w γ (.link h) := by
    intro h file known member
    rw [owners_link known (isOpen known member)]
    exact Multiset.mem_singleton_self file
  refine (owned.filter (· ∉ closedLinks forwarder w.shared.links)).congr (fun o => ?_) fun file => ?_
  · by_cases isLink : ∃ h, o = .link h
    · obtain ⟨h, rfl⟩ := isLink
      show linkHolds w.shared.links forwarder.isClosed h =
        (linkHolds w.shared.links w.shared.forwarder.isClosed h).filter _
      cases known : linkFile w.shared.links h with
      | none => simp only [linkHolds, known, Multiset.filter_zero]
      | some file =>
          cases before : w.shared.forwarder.isClosed h with
          | true =>
              simp only [linkHolds, known, before, still h before, ↓reduceIte, Multiset.filter_zero]
          | false =>
              have mine : linkHolds w.shared.links w.shared.forwarder.isClosed h = {file} :=
                owners_link (γ := γ) known before
              have member : file ∈ w.shared.files := by
                refine owned.of_mem (o := .link h) ?_
                show file ∈ linkHolds w.shared.links w.shared.forwarder.isClosed h
                rw [mine]
                exact Multiset.mem_singleton_self file
              rw [mine]
              simp only [linkHolds, known]
              cases after : forwarder.isClosed h with
              | true =>
                  have closed := mem_closedLinks.mpr ⟨h, known, after⟩
                  exact (Multiset.filter_eq_nil.mpr fun y inside =>
                    not_not.mpr (Multiset.mem_singleton.mp inside ▸ closed)).symm
              | false =>
                  refine (Multiset.filter_eq_self.mpr fun y inside => ?_).symm
                  rw [Multiset.mem_singleton.mp inside]
                  intro closed
                  obtain ⟨other, same, late⟩ := mem_closedLinks.mp closed
                  cases owned.unique (owns known member) (owns same member)
                  rw [after] at late
                  cases late
    · have same : owners { w with shared := w.shared.linked forwarder w.shared.links } γ o =
          owners w γ o := by
        cases o with
        | link h => exact absurd ⟨h, rfl⟩ isLink
        | thread | scheduled | handler | callback => rfl
      rw [same]
      refine (Multiset.filter_eq_self.mpr fun file inside => ?_).symm
      intro closed
      apply isLink
      obtain ⟨h, known, _⟩ := mem_closedLinks.mp closed
      exact ⟨h, owned.unique inside (owns known (owned.of_mem inside))⟩
  · show file ∈ w.shared.files.filter _ ↔ _
    rw [List.mem_filter, decide_eq_true_eq]

theorem Numbered.links {s : Shared A W} (numbered : Numbered s) (forwarder : Forwarder.State W) :
    Numbered (s.linked forwarder s.links) := by
  have stays : ∀ {file}, file ∈ s.files.filter (· ∉ closedLinks forwarder s.links) →
      file ∈ s.files ∧ file ∉ closedLinks forwarder s.links := by
    intro file member
    rwa [List.mem_filter, decide_eq_true_eq] at member
  refine ⟨(List.filter_sublist.map File.fd).nodup numbered.fds, ?_, numbered.linked, ?_⟩
  · exact fun file member => numbered.opened file (stays member).1
  · exact fun h file known closed member =>
      (stays member).2 (mem_closedLinks.mpr ⟨h, known, closed⟩)

theorem linkFile_append {links : List (File × File)} {link : File × File} {h : Sock}
    (old : h.1 ≠ links.length) : linkFile (links ++ [link]) h = linkFile links h := by
  unfold linkFile
  by_cases inside : h.1 < links.length
  · rw [List.getElem?_append_left inside]
  · have outside : links.length < h.1 := by omega
    rw [List.getElem?_eq_none (by simp; omega), List.getElem?_eq_none (Nat.le_of_lt outside)]

theorem linkFile_last {links : List (File × File)} {client server : File} :
    linkFile (links ++ [(client, server)]) (links.length, .client) = some client ∧
      linkFile (links ++ [(client, server)]) (links.length, .server) = some server := by
  simp [linkFile]

end Links

section Forwards

variable {w : World (signature A (Watched W)) Thread (Shared A (Watched W))} {γ : Thread → Hand}
  {t : Thread}

/-- A link that there is no pair for has not closed anything. -/
theorem isClosed_of_new {s : Forwarder.State W} {h : Sock} (new : h.1 = s.pairs.length) :
    s.isClosed h = false := by
  rw [Forwarder.State.isClosed, new, List.getElem?_eq_none (Nat.le_refl _)]
  rfl

/-- The loop of the forwarder has made a step, in which it was given no sockets. -/
theorem Accounts.link (accounts : Accounts opt k w γ) {action : Forwarder.Action (Watched W)}
    {forwarder : Forwarder.State (Watched W)}
    (quiet : ∀ fuel leftFirst, action = .dispatch fuel leftFirst →
      popsNext w.shared.forwarder = false)
    (unseen : ∀ world, action = .outside world → world.log = w.shared.forwarder.world.log)
    (stepped : Forwarder.step k.watched opt.forwarder w.shared.forwarder action = some forwarder) :
    Accounts opt k { w with shared := w.shared.linked forwarder w.shared.links } γ := by
  have forwards := accounts.forwards
  have engaged := accounts.engaged
  have after : Forwarder.Reachable k.watched opt.forwarder forwarder :=
    .move forwards.forwarder ⟨action, trivial, stepped⟩
  have pops : ∀ fuel leftFirst rest, action = .dispatch fuel leftFirst →
      w.shared.forwarder.phase ≠ .dispatching (.popFunc :: rest) := by
    intro fuel leftFirst rest dispatches phase
    have pops := quiet fuel leftFirst dispatches
    rw [popsNext, phase] at pops
    cases pops
  obtain ⟨log, tracks⟩ := Forwarder.step_tracks k
    (Forwarder.fair_of_reachable k.watched forwards.forwarder).1 unseen pops stepped
  refine ⟨owned_linked accounts.owned accounts.numbered fun h => tracks.uses.still,
    ⟨engaged.runs, engaged.jobs, engaged.once⟩, accounts.numbered.links forwarder,
    accounts.uses, accounts.dns, ⟨after, ?_, ?_⟩⟩
  · exact forwards.pairs.trans tracks.length.symm
  · show Uses _ forwarder.world.log forwarder.isClosed
    rw [tracks.appended]
    exact forwards.log.append tracks.uses

/-- The links of the new pair get the two files. -/
theorem linkFile_forward {links : List (File × File)} {client server file : File} {h : Sock}
    (known : linkFile (links ++ [(client, server)]) h = some file) :
    h.1 = links.length ∧ file ∈ [client, server] ∨ linkFile links h = some file := by
  obtain ⟨i, x⟩ := h
  by_cases last : i = links.length
  · subst last
    refine .inl ⟨rfl, ?_⟩
    cases x with
    | client =>
        rw [linkFile_last.1] at known
        cases known
        exact List.mem_cons_self
    | server =>
        rw [linkFile_last.2] at known
        cases known
        exact List.mem_cons_of_mem client List.mem_cons_self
  · rw [linkFile_append last] at known
    exact .inr known

theorem numbered_forward (accounts : Accounts opt k w γ) {client server : File}
    (given : ([client, server] : Multiset File) ≤ (γ t).holds) :
    Numbered { w.shared with links := w.shared.links ++ [(client, server)] } := by
  have numbered := accounts.numbered
  refine ⟨numbered.fds, numbered.opened, ?_, ?_⟩
  · intro h file link
    rcases linkFile_forward link with ⟨_, member⟩ | link
    · exact numbered.opened file (accounts.given given member)
    · exact numbered.linked h file link
  · intro h file link closed
    rcases linkFile_forward link with ⟨new, _⟩ | link
    · rw [isClosed_of_new (new.trans accounts.forwards.pairs)] at closed
      cases closed
    · exact numbered.gone h file link closed

/-- A pair is going to be made of two files of a thread. -/
theorem owned_forward (accounts : Accounts opt k w γ) {client server : File}
    (given : ([client, server] : Multiset File) ≤ (γ t).holds) :
    Owned (owners { w with shared :=
        { w.shared with links := w.shared.links ++ [(client, server)] } }
      (Function.update γ t { γ t with holds := (γ t).holds - [client, server] }))
      (· ∈ w.shared.files) := by
  have fresh : ∀ x, w.shared.forwarder.isClosed (w.shared.links.length, x) = false :=
    fun x => isClosed_of_new accounts.forwards.pairs
  have before : ∀ x, linkHolds w.shared.links w.shared.forwarder.isClosed
      (w.shared.links.length, x) = 0 := by
    intro x
    simp [linkHolds, linkFile]
  refine accounts.owned.share (a := .thread t) (b := .link (w.shared.links.length, .client))
    (c := .link (w.shared.links.length, .server)) (x := client) (y := server) nofun nofun
    (by simp) ?_ ?_ ?_ ?_
  · rw [owners_self, ← pair_add, Multiset.add_comm, Multiset.sub_add_cancel given]
    rfl
  · show linkHolds _ _ _ = client ::ₘ linkHolds _ _ _
    rw [before, linkHolds, linkFile_last.1]
    simp only [fresh, Bool.false_eq_true, ↓reduceIte]
    rfl
  · show linkHolds _ _ _ = server ::ₘ linkHolds _ _ _
    rw [before, linkHolds, linkFile_last.2]
    simp only [fresh, Bool.false_eq_true, ↓reduceIte]
    rfl
  · intro o other notClient notServer
    rw [owners_other other]
    cases o with
    | link h =>
        have old : h.1 ≠ w.shared.links.length := by
          obtain ⟨i, x⟩ := h
          rintro rfl
          cases x with
          | client => exact notClient rfl
          | server => exact notServer rfl
        show linkHolds _ _ _ = linkHolds _ _ _
        simp only [linkHolds, linkFile_append old]
    | thread | scheduled | handler | callback => rfl

/-- `LinkEventHandler::New` -/
theorem Accounts.forward (accounts : Accounts opt k w γ) {client server : File}
    {forwarder : Forwarder.State (Watched W)}
    (given : ([client, server] : Multiset File) ≤ (γ t).holds)
    (pops : popsNext w.shared.forwarder = true)
    (stepped : Forwarder.step k.watched opt.forwarder w.shared.forwarder (.dispatch 0 true) =
      some forwarder) :
    Accounts opt k { w with shared :=
        ((w.shared.use client).use server).linked forwarder (w.shared.links ++ [(client, server)]) }
      (Function.update γ t { γ t with holds := (γ t).holds - [client, server] }) := by
  have used : Accounts opt k { w with shared := (w.shared.use client).use server } γ :=
    (accounts.use (accounts.given given List.mem_cons_self)).use
      (accounts.given given (List.mem_cons_of_mem client List.mem_cons_self))
  have forwards := accounts.forwards
  have owned := owned_forward accounts given
  have numbered := numbered_forward accounts given
  have after : Forwarder.Reachable k.watched opt.forwarder forwarder :=
    .move forwards.forwarder ⟨_, trivial, stepped⟩
  obtain ⟨rest, phase⟩ : ∃ rest, w.shared.forwarder.phase = .dispatching (.popFunc :: rest) := by
    unfold popsNext at pops
    split at pops
    · rename_i rest phase
      exact ⟨rest, phase⟩
    · cases pops
  obtain ⟨log, tracks⟩ := Forwarder.step_pops k
    (Forwarder.fair_of_reachable k.watched forwards.forwarder).1 phase stepped
  have linked := owned_linked owned numbered fun h => tracks.uses.still
  have closed := numbered.links forwarder
  refine ⟨linked, used.engaged.same rfl rfl rfl (.inl rfl),
    ⟨closed.fds, closed.opened, closed.linked, closed.gone⟩, used.uses, accounts.dns,
    ⟨after, ?_, ?_⟩⟩
  · show (w.shared.links ++ [(client, server)]).length = forwarder.pairs.length
    rw [List.length_append, tracks.length, forwards.pairs]
    rfl
  · show Uses _ forwarder.world.log forwarder.isClosed
    rw [tracks.appended]
    exact forwards.log.append tracks.uses

end Forwards

section Sound

variable {w : World (signature A (Watched W)) Thread (Shared A (Watched W))} {γ : Thread → Hand}
  {t : Thread} {shared : Shared A (Watched W)}

def Op.outside : Op A (Watched W) → Option (Watched W)
  | .link (.outside world) => some world
  | _ => none

/-- What is outside of the process does not change the log of the system calls. -/
def Unseen (o : Op A (Watched W)) (_ : Reply A (Watched W)) (s : Shared A (Watched W)) : Prop :=
  ∀ world ∈ o.outside, world.log = s.forwarder.world.log

instance {o : Op A (Watched W)} {e : Reply A (Watched W)} {s : Shared A (Watched W)} :
    Decidable (Unseen o e s) :=
  inferInstanceAs (Decidable (∀ world ∈ o.outside, world.log = s.forwarder.world.log))

instance (s : State A (Watched W)) : DecidablePred (Fine Unseen s) := Fine.decidable s

/-- Each operation goes by the discipline. -/
theorem Accounts.ran (accounts : Accounts opt k w γ) {o : Op A (Watched W)}
    {e : Reply A (Watched W)} {r : o.Res} (allowed : (γ t).allows o)
    (unseen : Unseen o e w.shared) (ran : Ran opt k.watched w.shared o r shared) :
    Accounts opt k { w with shared } (Function.update γ t ((γ t).after o r)) := by
  have same : ∀ {s}, Accounts opt k { w with shared := s } γ →
      Accounts opt k { w with shared := s } (Function.update γ t (γ t)) := by
    intro s accounts
    rwa [Function.update_eq_self]
  have unclaimed : ∀ {a : Dns.Action Callback A}, w.shared.dnsStep opt a = some shared →
      a.issues = [] → w.shared.dns.calling a = [] → (∀ job : Job, ¬ job.Claims a) →
      Accounts opt k { w with shared } (Function.update γ t (γ t)) :=
    fun stepped issues calling nobody => same (accounts.unclaimed stepped issues calling nobody)
  cases ran with
  | accept opened => exact accounts.open opened
  | new eh => exact same (accounts.quiet rfl)
  | @add eh absent =>
      have member := accounts.given allowed (Handler.fd_mem_files eh)
      exact (accounts.use member).add absent allowed
  | @remove eh member =>
      exact (accounts.use (accounts.registered member (Handler.fd_mem_files eh))).remove allowed
  | stays member => exact accounts.returns
  | deleted absent => exact accounts.returns.quiet rfl
  | read eh host_port =>
      have member := (accounts.engaged.runs t eh allowed).1
      exact same (accounts.use (accounts.registered member (Handler.fd_mem_files eh)))
  | enter eh => exact same (accounts.quiet rfl)
  | leave i => exact same (accounts.quiet rfl)
  | host_port i => exact same (accounts.quiet rfl)
  | close file => exact accounts.close allowed
  | resolve stepped => exact accounts.resolve stepped allowed.1
  | lockCall stepped =>
      obtain ⟨cb, arriving⟩ := allowed
      exact accounts.lockCall stepped arriving
  | scheduleCall stepped =>
      exact unclaimed stepped rfl rfl fun job => by cases job <;> simp [Job.Claims]
  | answerCall stepped =>
      obtain ⟨cb, due⟩ := allowed
      simp only [Hand.after, due]
      exact accounts.answerCall stepped due
  | start stepped =>
      exact unclaimed stepped rfl rfl fun job => by cases job <;> simp [Job.Claims]
  | idle => exact same accounts
  | lockWorker stepped => exact accounts.lockWorker stepped
  | returnResolve stepped =>
      exact unclaimed stepped rfl rfl fun job => by cases job <;> simp [Job.Claims]
  | readClock stepped =>
      exact unclaimed stepped rfl rfl fun job => by cases job <;> simp [Job.Claims]
  | lockRecord stepped => exact accounts.lockRecord stepped
  | callback stepped =>
      obtain ⟨cb, rest, calling⟩ := allowed
      simp only [Hand.after, calling]
      exact accounts.callback stepped calling
  | relock stepped => exact accounts.relock stepped allowed
  | schedule stepped =>
      exact unclaimed stepped rfl rfl fun job => by cases job <;> simp [Job.Claims]
  | socket opened => exact accounts.open opened
  | noSocket addr => exact same accounts
  | connect server addr ok => exact same (accounts.use (accounts.holds allowed))
  | sockError server ok =>
      obtain ⟨client, runs⟩ := allowed
      have member := (accounts.engaged.runs t _ runs).1
      exact same (accounts.use (accounts.registered member List.mem_cons_self))
  | forward pops stepped => exact accounts.forward allowed pops stepped
  | link quiet stepped =>
      refine same (accounts.link quiet (fun world outside => unseen world ?_) stepped)
      rw [outside]
      rfl
  | tick stepped =>
      exact unclaimed stepped rfl rfl fun job => by cases job <;> simp [Job.Claims]

/-- A function is written to a pipe. -/
theorem Accounts.schedule (accounts : Accounts opt k w γ) (l : LoopId) {f : Function}
    (given : f.files ≤ (γ t).holds) :
    Accounts opt k { w with pipes := Function.update w.pipes l (w.pipes l ++ [f]) }
      (Function.update γ t { γ t with holds := (γ t).holds - f.files }) := by
  refine ⟨?_, accounts.engaged.same rfl rfl rfl (.inl rfl), accounts.numbered, accounts.uses,
    accounts.dns, accounts.forwards⟩
  refine accounts.owned.move (a := .thread t) (b := .scheduled l) nofun f.files ?_ ?_ ?_
  · rw [owners_self, Multiset.add_comm, Multiset.sub_add_cancel given]
    rfl
  · exact Ownership.queue_push Function.files f
  · intro o other different
    rw [owners_other other]
    cases o with
    | scheduled m =>
        have apart : m ≠ l := fun same => different (by rw [same])
        exact Ownership.queue_other Function.files apart _
    | thread | handler | callback | link => rfl

/-- A loop takes a function from its pipe. -/
theorem Accounts.pop (accounts : Accounts opt k w γ) {l : LoopId} {f : Function}
    {rest : List Function} (idle : γ t = {}) (pipe : w.pipes l = f :: rest) :
    Accounts opt k { w with pipes := Function.update w.pipes l rest }
      (Function.update γ t { holds := f.files }) := by
  refine ⟨?_, accounts.engaged.same rfl rfl (by rw [idle]) (.inr rfl), accounts.numbered,
    accounts.uses, accounts.dns, accounts.forwards⟩
  refine accounts.owned.move (a := .scheduled l) (b := .thread t) nofun f.files ?_ ?_ ?_
  · exact Ownership.queue_pop Function.files pipe
  · rw [owners_self]
    show _ = _ + (γ t).holds
    rw [idle]
    exact (Multiset.add_zero _).symm
  · intro o different other
    rw [owners_other other]
    cases o with
    | scheduled m =>
        have apart : m ≠ l := fun same => different (by rw [same])
        exact Ownership.queue_other Function.files apart rest
    | thread | handler | callback | link => rfl

theorem owning_sound (capacity : LoopId → ℕ) :
    (owning A opt k).Sound (system opt k.watched A capacity) Unseen := by
  constructor
  · intro w γ t o e r shared accounts allowed unseen ran
    exact ⟨_, rfl, Accounts.ran accounts allowed unseen (exec_cases ran)⟩
  · rintro w γ t m γ' accounts rfl _
    rw [Function.update_eq_self]
    exact ⟨accounts.owned, accounts.engaged, accounts.numbered, accounts.uses, accounts.dns,
      accounts.forwards⟩
  · rintro w γ t m γ' accounts rfl _
    rw [Function.update_eq_self]
    exact ⟨accounts.owned, accounts.engaged, accounts.numbered, accounts.uses, accounts.dns,
      accounts.forwards⟩
  · rintro w γ t l f γ' accounts ⟨given, rfl⟩
    exact Accounts.schedule accounts l given
  · intro w γ l f rest accounts idle pipe
    exact ⟨_, owning_body l f, Accounts.pop accounts idle pipe⟩
  · intro w γ t e p accounts idle woken
    obtain ⟨γ', follows, started⟩ := owning_wake (wake_cases woken)
    have idle : γ t = {} := idle
    refine ⟨γ', follows, ?_⟩
    rcases started with rfl | ⟨eh, rfl, known, here⟩
    · rw [← idle, Function.update_eq_self]
      exact accounts
    · have accounts : Accounts opt k w γ := accounts
      have engaged := accounts.engaged
      refine ⟨?_, ?_, accounts.numbered, accounts.uses, accounts.dns, accounts.forwards⟩
      · refine accounts.owned.congr (fun o => ?_) fun _ => Iff.rfl
        by_cases mine : o = .thread t
        · subst mine
          rw [owners_self]
          show _ = (γ t).holds
          rw [idle]
        · exact owners_other mine
      · refine engaged.goes (fun u _ y runs => (engaged.runs u y runs).1)
          (fun u _ => engaged.jobs u) ?_ trivial nofun
        rintro y ⟨⟩
        exact ⟨known, here⟩

end Sound

variable {capacity : LoopId → ℕ}

/-- The runs in which the system calls on the sockets of links are logged. -/
def Logged (opt : Options) (k : Kernel W) (capacity : LoopId → ℕ) : State A (Watched W) → Prop :=
  Runs.Reachable (fun s => Init s ∧ s.shared.forwarder.world.log = [])
    (Runs.Moves (step (system opt k.watched A capacity)) (Fine Unseen))

theorem accounts_of_logged {s : State A (Watched W)} (run : Logged opt k capacity s) :
    (owning A opt k).Holds s := by
  refine (owning_sound capacity).reachable ?_ (fun _ _ fine => fine) run
  rintro s ⟨⟨clock, forwarder, initial, rfl⟩, unused⟩
  refine ⟨fun _ => {}, ?_, fun _ => rfl⟩
  have start := initial
  obtain ⟨timeout, reading, world, rfl⟩ := start
  have unused : world.log = [] := unused
  have nobody : ∀ (o : Owner) (file : File), file ∉ owners (A := A) (W := Watched W)
      ⟨{ dns := { clock }, forwarder := { loop := { timeout }, clock := reading, world } },
        fun _ => none, fun _ => []⟩ (fun _ => {}) o := by
    intro o file
    cases o <;> exact Multiset.notMem_zero file
  refine ⟨⟨fun o => ?_, fun first _ => absurd first (nobody _ _), fun file => ⟨nofun, ?_⟩⟩,
    ⟨nofun, fun _ => trivial, nofun⟩, ⟨.nil, nofun, nofun, nofun⟩, nofun, .start ⟨clock, rfl⟩,
    ⟨.start initial, rfl, ?_⟩⟩
  · cases o <;> exact Multiset.nodup_zero
  · exact fun ⟨o, member⟩ => absurd member (nobody o file)
  · show Uses _ world.log _
    rw [unused]
    rfl

/-- Whether a loop has a file in its `epoll`. -/
def Shared.InEpoll (s : Shared A W) (file : File) (l : LoopId) : Prop :=
  (∃ eh ∈ s.registered, eh.loop = l ∧ eh.fd = file) ∨
    l = .forwarder ∧ ∃ i p x, s.forwarder.pairs[i]? = some p ∧ (p.link x).event_loop = true ∧
      linkFile s.links (i, x) = some file

/-- The files that an operation uses, or hands on. -/
def Op.files : Op A W → List File
  | .add eh | .remove eh => eh.files
  | .read eh => [eh.fd]
  | .close file | .connect file _ | .sockError file => [file]
  | .resolve _ cb => [cb.client]
  | .forward client server => [client, server]
  | _ => []

/-- What is always so of the files of the proxy. -/
structure Accounted (opt : Options) (k : Kernel W) (s : State A (Watched W)) : Prop where
  owned : ∃ γ : Thread → Hand, Owned (owners s.toWorld γ) (· ∈ s.shared.files) ∧
    (∀ t, (owning A opt k).Follows t (γ t) (s.threads t)) ∧
    ∀ t, s.threads t = .ret → (γ t).holds = 0
  fds : (s.shared.files.map File.fd).Nodup
  operations : ∀ t o next, s.threads t = .op o next → ∀ file ∈ o.files, file ∈ s.shared.files
  schedules : ∀ t l f next, s.threads t = .schedule l f next →
    ∀ file ∈ f.files, file ∈ s.shared.files
  adds : ∀ t eh next, s.threads t = .op (.add eh) next → eh ∉ s.shared.registered
  removes : ∀ t eh next, s.threads t = .op (.remove eh) next → eh ∈ s.shared.registered
  uses : ∀ u ∈ s.shared.uses, u.found = some u.file.serial
  log : Uses (fun _ => false) s.shared.forwarder.world.log s.shared.forwarder.isClosed
  links : ∀ h file, linkFile s.shared.links h = some file →
    (file ∈ s.shared.files ↔ s.shared.forwarder.isClosed h = false)
  epoll : ∀ file l m, s.shared.InEpoll file l → s.shared.InEpoll file m →
    l = m ∧ file ∈ s.shared.files
  failed : ∀ (i : ℕ) (p : Forwarder.Pair), s.shared.forwarder.pairs[i]? = some p →
    p.linked = false → p.Discarded

section Accounted

variable {w : World (signature A (Watched W)) Thread (Shared A (Watched W))} {γ : Thread → Hand}
  {t : Thread} {file : File}

/-- What the code of a thread is about to use or to hand on is open. -/
theorem Accounts.operation (accounts : Accounts opt k w γ) {o : Op A (Watched W)}
    (allowed : (γ t).allows o) (member : file ∈ o.files) : file ∈ w.shared.files := by
  have runs : ∀ {eh : Handler}, (γ t).runs = some eh → file ∈ eh.files → file ∈ w.shared.files :=
    fun runs member => accounts.registered (accounts.engaged.runs t _ runs).1 member
  cases o with
  | add eh => exact accounts.given allowed member
  | remove eh => exact runs allowed member
  | read eh =>
      rw [List.mem_singleton.mp member]
      exact accounts.registered (accounts.engaged.runs t eh allowed).1 (Handler.fd_mem_files eh)
  | close file | connect file =>
      rw [List.mem_singleton.mp member]
      exact accounts.holds allowed
  | sockError server =>
      obtain ⟨client, known⟩ := allowed
      refine runs known ?_
      rw [List.mem_singleton.mp member]
      exact List.mem_cons_self
  | resolve host_port cb =>
      rw [List.mem_singleton.mp member]
      exact accounts.holds allowed.1
  | forward client server => exact accounts.given allowed member
  | _ => cases member

/-- A handler that code is going to register is not registered. -/
theorem Accounts.absent (accounts : Accounts opt k w γ) {eh : Handler}
    (given : (eh.files : Multiset File) ≤ (γ t).holds) : eh ∉ w.shared.registered := by
  intro known
  have mine : eh.fd ∈ owners w γ (.thread t) :=
    Multiset.mem_of_le given (Multiset.mem_coe.mpr (Handler.fd_mem_files eh))
  have theirs : eh.fd ∈ owners w γ (.handler eh) := by
    rw [owners, if_pos known]
    exact Handler.fd_mem_files eh
  cases accounts.owned.unique mine theirs

theorem mem_owners_link {h : Sock} (known : linkFile w.shared.links h = some file)
    (isOpen : w.shared.forwarder.isClosed h = false) : file ∈ owners w γ (.link h) := by
  rw [owners_link known isOpen]
  exact Multiset.mem_singleton_self file

/-- The socket of a link is open until the link closes it. -/
theorem Accounts.linked (accounts : Accounts opt k w γ) {h : Sock}
    (known : linkFile w.shared.links h = some file) :
    file ∈ w.shared.files ↔ w.shared.forwarder.isClosed h = false := by
  constructor
  · intro member
    cases closed : w.shared.forwarder.isClosed h with
    | false => rfl
    | true => exact absurd member (accounts.numbered.gone h file known closed)
  · exact fun isOpen => accounts.mem (mem_owners_link known isOpen)

/-- What is in an `epoll` is owned by a handler of the loop, or by a link. -/
theorem Accounts.owner_of_inEpoll (accounts : Accounts opt k w γ) {l : LoopId}
    (inEpoll : w.shared.InEpoll file l) : ∃ o, file ∈ owners w γ o ∧
      ((∃ eh, o = .handler eh ∧ eh.loop = l) ∨ (∃ h, o = .link h) ∧ l = .forwarder) := by
  rcases inEpoll with ⟨eh, member, rfl, rfl⟩ | ⟨rfl, i, p, x, found, inside, known⟩
  · refine ⟨.handler eh, ?_, .inl ⟨eh, rfl, rfl⟩⟩
    rw [owners, if_pos member]
    exact Handler.fd_mem_files eh
  · have registered := (Forwarder.fair_of_reachable k.watched accounts.forwards.forwarder).2
    refine ⟨.link (i, x), mem_owners_link known ?_, .inr ⟨⟨_, rfl⟩, rfl⟩⟩
    rw [Forwarder.State.isClosed, found]
    show p.isClosed x = false
    rw [registered i p found x, inside]
    rfl

theorem Accounts.epoll (accounts : Accounts opt k w γ) {l m : LoopId}
    (first : w.shared.InEpoll file l) (second : w.shared.InEpoll file m) :
    l = m ∧ file ∈ w.shared.files := by
  obtain ⟨o, member, why⟩ := accounts.owner_of_inEpoll first
  obtain ⟨o', member', why'⟩ := accounts.owner_of_inEpoll second
  obtain rfl := accounts.owned.unique member member'
  refine ⟨?_, accounts.mem member⟩
  rcases why with ⟨eh, rfl, rfl⟩ | ⟨⟨h, rfl⟩, rfl⟩
  · rcases why' with ⟨_, same, rfl⟩ | ⟨⟨_, same⟩, _⟩
    · cases same
      rfl
    · cases same
  · rcases why' with ⟨_, same, _⟩ | ⟨_, rfl⟩
    · cases same
    · rfl

end Accounted

/-- A pair that `New` has given up has nothing left. -/
theorem Forwards.failed {s : Shared A (Watched W)} (forwards : Forwards opt k s) {i : ℕ}
    {p : Forwarder.Pair} (found : s.forwarder.pairs[i]? = some p) (unlinked : p.linked = false) :
    p.Discarded := by
  obtain ⟨temps, safe⟩ := Forwarder.safe_of_reachable k.watched forwards.forwarder
  rcases safe.pairs i p found with intact | ⟨discarded, _⟩
  · rw [intact.linked] at unlinked
    cases unlinked
  · exact discarded

/-- Every file that is open has exactly one owner, and whoever owns it closes it or hands it on. So
what nobody owns is closed; and as no system call is made on a file that is not open, and files that
are open have different numbers, nothing is closed twice or used once it is closed. -/
theorem files_owned {s : State A (Watched W)} (run : Logged opt k capacity s) :
    Accounted opt k s := by
  obtain ⟨γ, accounts, follows⟩ := accounts_of_logged run
  have accounts : Accounts opt k s.toWorld γ := accounts
  have allowed : ∀ {t o next}, s.threads t = .op o next → (γ t).allows o := by
    intro t o next program
    have here := follows t
    rw [program] at here
    exact here.1
  refine ⟨⟨γ, accounts.owned, follows, ?_⟩, accounts.numbered.fds, ?_, ?_, ?_, ?_, accounts.uses,
    accounts.forwards.log, ?_, ?_, ?_⟩
  · intro t idle
    have here := follows t
    rw [idle] at here
    rw [owning_ret.mp here]
  · exact fun t o next program file member => accounts.operation (allowed program) member
  · intro t l f next program file member
    have here := follows t
    rw [program] at here
    obtain ⟨_, ⟨given, _⟩, _⟩ := here
    exact accounts.given given member
  · exact fun t eh next program => accounts.absent (allowed program)
  · exact fun t eh next program => (accounts.engaged.runs t eh (allowed program)).1
  · exact fun h file known => accounts.linked known
  · exact fun file l m first second => accounts.epoll first second
  · exact fun i p found unlinked => accounts.forwards.failed found unlinked

/-- A tunnel is made for a client. -/
def tunnel : Actions (Watched Bytes) :=
  [asks ⟨5, 0⟩, alone (.loop .parser) 6, elapses 5, processes (some oneAddress),
    alone (.worker 0) 1, [.run (.worker 0) (.fd 6), .run (.worker 0) (.ok true)],
    alone (.worker 0) 2,
    [.pop .connector, .run (.loop .connector) .nothing,
      .wake (.loop .connector) (.event (.connect ⟨6, 1⟩ ⟨5, 0⟩) EPOLLOUT),
      .run (.loop .connector) (.ok true)],
    alone (.loop .connector) 3,
    [.wake (.loop .forwarder) (.link (.wait [.popFunc])), .run (.loop .forwarder) .nothing,
      .pop .forwarder, .run (.loop .forwarder) .nothing]].flatten

def unused : State ℕ (Watched Bytes) where
  shared := { dns := { clock := 0 }
              forwarder := {
                loop := { timeout := Forwarder.sixty }, clock := 0, world := ⟨[], []⟩ } }
  holder _ := none
  pipes _ := []
  threads _ := .ret

def tunneled : State ℕ (Watched Bytes) :=
  (Runs.replayIf (step (system onePort Forwarder.eager.watched ℕ fun _ => 1)) (Fine Unseen) unused
    tunnel).get (by decide +kernel)

theorem tunneled_run : Logged onePort Forwarder.eager (fun _ => 1) tunneled :=
  Runs.replayIf_reachable _ (.start ⟨⟨0, _, ⟨_, _, _, rfl⟩, rfl⟩, rfl⟩) (Option.some_get _).symm

theorem files_owned_tunneled : tunneled.shared.links = [(⟨5, 0⟩, ⟨6, 1⟩)] ∧
    Accounted onePort Forwarder.eager tunneled :=
  ⟨by decide +kernel, files_owned tunneled_run⟩

end Hcproxy.Proxy
