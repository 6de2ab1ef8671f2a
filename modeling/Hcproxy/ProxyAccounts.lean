import Hcproxy.ProxyFiles

set_option autoImplicit false

namespace Hcproxy.Proxy

open Hcproxy.Forwarder (Kernel Watched)
open Ownership (Owned)
open Programs

variable {A W : Type} {opt : Options} {k : Kernel W}

section Accounts

variable {w : World (signature A (Watched W)) Thread (Shared A (Watched W))} {γ : Thread → Hand}
  {t : Thread} {γ' : Hand} {shared : Shared A (Watched W)}

theorem owners_self {pipes : LoopId → List Function} {holder : Mutex → Option Thread} :
    owners ⟨shared, holder, pipes⟩ (Function.update γ t γ') (.thread t) = γ'.holds := by
  rw [owners, Function.update_self]

theorem owners_other {pipes : LoopId → List Function} {holder : Mutex → Option Thread} {o : Owner}
    (other : o ≠ .thread t) : owners ⟨shared, holder, pipes⟩ (Function.update γ t γ') o =
      owners ⟨shared, holder, pipes⟩ γ o := by
  cases o with
  | thread u =>
      have different : u ≠ t := fun same => other (by rw [same])
      rw [owners, owners, Function.update_of_ne different]
  | scheduled l => rfl
  | handler eh => rfl
  | callback cb => rfl
  | link h => rfl

theorem Accounts.mem (accounts : Accounts opt k w γ) {o : Owner} {file : File}
    (member : file ∈ owners w γ o) : file ∈ w.shared.files := accounts.owned.of_mem member

theorem Accounts.holds (accounts : Accounts opt k w γ) {file : File}
    (member : file ∈ (γ t).holds) : file ∈ w.shared.files :=
  accounts.mem (o := .thread t) member

theorem Accounts.given (accounts : Accounts opt k w γ) {files : List File}
    (given : (files : Multiset File) ≤ (γ t).holds) {file : File} (member : file ∈ files) :
    file ∈ w.shared.files :=
  accounts.holds (Multiset.mem_of_le given (Multiset.mem_coe.mpr member))

/-- The files of a registered handler are open. -/
theorem Accounts.registered (accounts : Accounts opt k w γ) {eh : Handler}
    (registered : eh ∈ w.shared.registered) {file : File} (member : file ∈ eh.files) :
    file ∈ w.shared.files := by
  refine accounts.mem (o := .handler eh) ?_
  rw [owners, if_pos registered]
  exact member

theorem Handler.fd_mem_files (eh : Handler) : eh.fd ∈ eh.files := by
  cases eh <;> exact List.mem_cons_self

/-- Under the number of an open file the kernel has that file. -/
theorem Numbered.found {s : Shared A W} (numbered : Numbered s) {file : File}
    (member : file ∈ s.files) : s.files.find? (·.fd == file.fd) = some file := by
  cases found : s.files.find? (·.fd == file.fd) with
  | none => simpa using List.find?_eq_none.mp found file member
  | some other =>
      have same := List.find?_some found
      have same : other.fd = file.fd := beq_iff_eq.mp same
      rw [List.inj_on_of_nodup_map numbered.fds (List.mem_of_find?_eq_some found) member same]

/-- A system call on an open file. -/
theorem Accounts.use (accounts : Accounts opt k w γ) {file : File}
    (member : file ∈ w.shared.files) : Accounts opt k { w with shared := w.shared.use file } γ := by
  have numbered := accounts.numbered
  have engaged := accounts.engaged
  have forwards := accounts.forwards
  refine ⟨accounts.owned, ⟨engaged.runs, engaged.jobs, engaged.once⟩,
    ⟨numbered.fds, numbered.opened, numbered.linked, numbered.gone⟩, ?_, accounts.dns,
    ⟨forwards.forwarder, forwards.pairs, forwards.log⟩⟩
  intro u inside
  rcases List.mem_append.mp inside with before | last
  · exact accounts.uses u before
  · rw [List.mem_singleton.mp last, numbered.found member]
    rfl

/-- What happens to the rest of the state. -/
theorem Accounts.quiet (accounts : Accounts opt k w γ) {s : Shared A (Watched W)}
    (same : s = { w.shared with
      alive := s.alive, active := s.active, calls := s.calls, reads := s.reads }) :
    Accounts opt k { w with shared := s } γ := by
  have numbered := accounts.numbered
  have engaged := accounts.engaged
  have forwards := accounts.forwards
  rw [same]
  exact ⟨accounts.owned, ⟨engaged.runs, engaged.jobs, engaged.once⟩,
    ⟨numbered.fds, numbered.opened, numbered.linked, numbered.gone⟩, accounts.uses, accounts.dns,
    ⟨forwards.forwarder, forwards.pairs, forwards.log⟩⟩

/-- A thread goes on, and its job is not that of another one. -/
theorem Engaged.goes {s s' : Shared A W} (engaged : Engaged s γ)
    (registered : ∀ u, u ≠ t → ∀ eh, (γ u).runs = some eh → eh ∈ s'.registered)
    (dns : ∀ u, u ≠ t → (γ u).job.Current s'.dns)
    (runs : ∀ eh, γ'.runs = some eh → eh ∈ s'.registered ∧ t = .loop eh.loop)
    (job : γ'.job.Current s'.dns)
    (new : ∀ slot u, γ'.job.slot = some slot → (γ u).job.slot = some slot → u = t) :
    Engaged s' (Function.update γ t γ') := by
  refine ⟨fun u eh known => ?_, fun u => ?_, fun u v slot first second => ?_⟩
  · by_cases same : u = t
    · subst same
      rw [Function.update_self] at known
      exact runs eh known
    · rw [Function.update_of_ne same] at known
      exact ⟨registered u same eh known, (engaged.runs u eh known).2⟩
  · by_cases same : u = t
    · subst same
      rwa [Function.update_self]
    · rw [Function.update_of_ne same]
      exact dns u same
  · by_cases here : u = t
    · subst here
      rw [Function.update_self] at first
      by_cases there : v = u
      · exact there.symm
      · rw [Function.update_of_ne there] at second
        exact (new slot v first second).symm
    · rw [Function.update_of_ne here] at first
      by_cases there : v = t
      · subst there
        rw [Function.update_self] at second
        exact new slot u second first
      · rw [Function.update_of_ne there] at second
        exact engaged.once u v slot first second

/-- It goes on with the same job. -/
theorem Engaged.same {s s' : Shared A W} (engaged : Engaged s γ)
    (registered : s'.registered = s.registered) (dns : s'.dns = s.dns)
    (job : γ'.job = (γ t).job) (runs : γ'.runs = (γ t).runs ∨ γ'.runs = none) :
    Engaged s' (Function.update γ t γ') := by
  refine engaged.goes (fun u _ eh known => ?_) (fun u _ => ?_) (fun eh known => ?_) ?_ ?_
  · rw [registered]
    exact (engaged.runs u eh known).1
  · rw [dns]
    exact engaged.jobs u
  · rcases runs with same | none
    · rw [same] at known
      rw [registered]
      exact engaged.runs t eh known
    · rw [none] at known
      cases known
  · rw [dns, job]
    exact engaged.jobs t
  · intro slot u known again
    rw [job] at known
    exact engaged.once u t slot again known

/-- A method of a handler has returned. -/
theorem Accounts.returns (accounts : Accounts opt k w γ) :
    Accounts opt k w (Function.update γ t { γ t with runs := none }) := by
  refine ⟨?_, accounts.engaged.same rfl rfl rfl (.inr rfl), accounts.numbered, accounts.uses,
    accounts.dns, accounts.forwards⟩
  refine accounts.owned.congr (fun o => ?_) fun _ => Iff.rfl
  by_cases here : o = .thread t
  · subst here
    exact owners_self
  · exact owners_other here

/-- A file is opened. -/
theorem Accounts.open (accounts : Accounts opt k w γ) {fd : ℕ} {file : File}
    (opened : w.shared.open fd = some (file, shared)) : Accounts opt k { w with shared }
      (Function.update γ t { γ t with holds := file ::ₘ (γ t).holds }) := by
  obtain ⟨free, rfl, rfl⟩ := open_eq opened
  have numbered := accounts.numbered
  have forwards := accounts.forwards
  have fresh : ∀ file ∈ w.shared.files, file ≠ ⟨fd, w.shared.serials⟩ := by
    rintro file member rfl
    exact Nat.lt_irrefl _ (numbered.opened _ member)
  have more : ∀ {file}, file ∈ w.shared.files ++ [⟨fd, w.shared.serials⟩] ↔
      file = ⟨fd, w.shared.serials⟩ ∨ file ∈ w.shared.files := by
    intro file
    rw [List.mem_append, List.mem_singleton]
    exact Or.comm
  refine ⟨?_, accounts.engaged.same rfl rfl rfl (.inl rfl), ?_, accounts.uses, accounts.dns,
    ⟨forwards.forwarder, forwards.pairs, forwards.log⟩⟩
  · refine accounts.owned.gain (b := .thread t) ?_ owners_self (fun o => owners_other) fun y => more
    exact fun member => fresh _ member rfl
  · refine ⟨?_, ?_, ?_, ?_⟩
    · show ((w.shared.files ++ [_]).map File.fd).Nodup
      rw [List.map_append]
      refine List.nodup_append.mpr ⟨numbered.fds, List.nodup_singleton _, ?_⟩
      rintro number inside other last rfl
      obtain rfl : number = fd := List.mem_singleton.mp last
      exact free inside
    · intro file member
      rcases more.mp member with rfl | member
      · exact Nat.lt_succ_self _
      · exact Nat.lt_succ_of_lt (numbered.opened file member)
    · exact fun h file known => Nat.lt_succ_of_lt (numbered.linked h file known)
    · intro h file known closed member
      rcases more.mp member with rfl | member
      · exact Nat.lt_irrefl _ (numbered.linked h _ known)
      · exact numbered.gone h file known closed member

/-- `event_loop_.Add(eh, ...)` -/
theorem Accounts.add (accounts : Accounts opt k w γ) {eh : Handler}
    (absent : eh ∉ w.shared.registered) (given : (eh.files : Multiset File) ≤ (γ t).holds) :
    Accounts opt k
      { w with shared := { w.shared with registered := eh :: w.shared.registered } }
      (Function.update γ t { γ t with holds := (γ t).holds - eh.files }) := by
  have numbered := accounts.numbered
  have forwards := accounts.forwards
  have engaged := accounts.engaged
  refine ⟨?_, ?_, ⟨numbered.fds, numbered.opened, numbered.linked, numbered.gone⟩, accounts.uses,
    accounts.dns, ⟨forwards.forwarder, forwards.pairs, forwards.log⟩⟩
  · refine accounts.owned.move (a := .thread t) (b := .handler eh) nofun eh.files ?_ ?_ ?_
    · rw [owners_self, Multiset.add_comm, Multiset.sub_add_cancel given]
      rfl
    · show (if eh ∈ eh :: w.shared.registered then (eh.files : Multiset File) else 0) =
        eh.files + if eh ∈ w.shared.registered then (eh.files : Multiset File) else 0
      rw [if_pos List.mem_cons_self, if_neg absent, Multiset.add_zero]
    · intro o other different
      rw [owners_other other]
      cases o with
      | handler y =>
          have apart : y ≠ eh := fun same => different (by rw [same])
          show (if y ∈ eh :: w.shared.registered then (y.files : Multiset File) else 0) =
            if y ∈ w.shared.registered then (y.files : Multiset File) else 0
          simp only [List.mem_cons, apart, false_or]
      | thread | scheduled | callback | link => rfl
  · refine engaged.goes (fun u _ y known => ?_) (fun u _ => engaged.jobs u) (fun y known => ?_)
      (engaged.jobs t) fun slot u known again => engaged.once u t slot again known
    · exact List.mem_cons_of_mem eh (engaged.runs u y known).1
    · exact ⟨List.mem_cons_of_mem eh (engaged.runs t y known).1, (engaged.runs t y known).2⟩

/-- `loop->Remove(this)` -/
theorem Accounts.remove (accounts : Accounts opt k w γ) {eh : Handler}
    (runs : (γ t).runs = some eh) : Accounts opt k
      { w with shared := { w.shared with registered := w.shared.registered.filter (· ≠ eh) } }
      (Function.update γ t { γ t with holds := eh.files + (γ t).holds, runs := none }) := by
  obtain ⟨member, here⟩ := accounts.engaged.runs t eh runs
  have numbered := accounts.numbered
  have engaged := accounts.engaged
  have forwards := accounts.forwards
  have stays : ∀ y, y ∈ w.shared.registered.filter (· ≠ eh) ↔
      y ∈ w.shared.registered ∧ y ≠ eh := by
    intro y
    rw [List.mem_filter, decide_eq_true_eq]
  refine ⟨?_, ?_, ⟨numbered.fds, numbered.opened, numbered.linked, numbered.gone⟩, accounts.uses,
    accounts.dns, ⟨forwards.forwarder, forwards.pairs, forwards.log⟩⟩
  · refine accounts.owned.move (a := .handler eh) (b := .thread t) nofun eh.files ?_ owners_self ?_
    · show (if eh ∈ w.shared.registered then (eh.files : Multiset File) else 0) = eh.files +
        if eh ∈ w.shared.registered.filter (· ≠ eh) then (eh.files : Multiset File) else 0
      rw [if_pos member, if_neg fun again => ((stays eh).mp again).2 rfl, Multiset.add_zero]
    · intro o different other
      rw [owners_other other]
      cases o with
      | handler y =>
          have apart : y ≠ eh := fun same => different (by rw [same])
          show (if y ∈ w.shared.registered.filter (· ≠ eh) then (y.files : Multiset File) else 0) =
            if y ∈ w.shared.registered then (y.files : Multiset File) else 0
          simp only [stays, apart, ne_eq, not_false_eq_true, and_true]
      | thread | scheduled | callback | link => rfl
  · refine engaged.goes (fun u other y known => ?_) (fun u _ => engaged.jobs u) nofun
      (engaged.jobs t) fun slot u known again => engaged.once u t slot again known
    obtain ⟨inside, there⟩ := engaged.runs u y known
    refine (stays y).mpr ⟨inside, ?_⟩
    rintro rfl
    exact other (there.trans here.symm)

/-- `close` -/
theorem Accounts.close (accounts : Accounts opt k w γ) {file : File} (mine : file ∈ (γ t).holds) :
    Accounts opt k { w with shared := w.shared.close file }
      (Function.update γ t { γ t with holds := (γ t).holds.erase file }) := by
  have numbered := accounts.numbered
  have forwards := accounts.forwards
  have member := accounts.holds mine
  have fewer : ∀ y, y ∈ w.shared.files.filter (·.fd ≠ file.fd) ↔ y ∈ w.shared.files ∧ y ≠ file := by
    intro y
    rw [List.mem_filter, decide_eq_true_eq]
    refine and_congr_right fun inside => not_congr ?_
    constructor
    · exact List.inj_on_of_nodup_map numbered.fds inside member
    · rintro rfl
      rfl
  refine ⟨?_, accounts.engaged.same rfl rfl rfl (.inl rfl), ⟨?_, ?_, numbered.linked, ?_⟩,
    (accounts.use member).uses, accounts.dns,
    ⟨forwards.forwarder, forwards.pairs, forwards.log⟩⟩
  · refine accounts.owned.drop (a := .thread t) ?_ (fun o => owners_other) fewer
    rw [owners_self, Multiset.cons_erase mine]
    rfl
  · exact (List.filter_sublist.map File.fd).nodup numbered.fds
  · exact fun y inside => numbered.opened y ((fewer y).mp inside).1
  · exact fun h y known closed inside => numbered.gone h y known closed ((fewer y).mp inside).1

/-- A step of the resolver that is not one of a job leaves it as it is. -/
theorem Job.Current.kept {s s' : Dns.State Callback A} {a : Dns.Action Callback A} {job : Job}
    {options : Dns.Options} (current : job.Current s) (single : Dns.SingleTask s)
    (moved : Dns.Moved options s a s') (apart : ¬ job.Claims a) : job.Current s' := by
  cases job with
  | none => trivial
  | arriving i cb =>
      obtain ⟨host_port, now, found⟩ := current
      exact ⟨host_port, now, Dns.arriving_stays moved found apart⟩
  | due i cb =>
      obtain ⟨answer, found, same⟩ := current
      exact ⟨answer, Dns.due_stays moved found apart, same⟩
  | calling j callbacks =>
      obtain ⟨it, addr, index, now, seen, found⟩ := current
      have still := not_or.mp apart
      exact ⟨it, addr, index, now, seen, Dns.calling_stays single moved found still.1 still.2⟩

/-- What a step of the resolver is to the files: callbacks wait, and are called. -/
structure Steps (opt : Options) (s s' : Shared A W) (a : Dns.Action Callback A) : Prop where
  rest : s' = { s with dns := s'.dns }
  reach : Dns.Reachable opt.dns s'.dns
  moved : Dns.Moved opt.dns s.dns a s'.dns
  single : Dns.SingleTask s.dns
  waiting : ∀ cb, s'.dns.waiting cb + (s.dns.calling a).count cb =
    s.dns.waiting cb + a.issues.count cb

theorem steps_of_dnsStep {s s' : Shared A W} {a : Dns.Action Callback A}
    (reach : Dns.Reachable opt.dns s.dns) (stepped : s.dnsStep opt a = some s') :
    Steps opt s s' a := by
  obtain ⟨dns, moved, rfl⟩ := dnsStep_eq stepped
  have after : Dns.Reachable opt.dns dns := .move reach ⟨a, trivial, moved⟩
  have single := Dns.ReachableIf.singleTask reach
  have moved := Dns.step_cases moved
  exact ⟨rfl, after, moved, single, Dns.waiting_moved single reach.placed after.placed moved⟩

/-- The thread `t` makes a step of the resolver, which may be one of its job. -/
theorem Accounts.steps (accounts : Accounts opt k w γ) {a : Dns.Action Callback A}
    (steps : Steps opt w.shared shared a) (others : ∀ u, u ≠ t → ¬ (γ u).job.Claims a)
    (owned : Owned (owners { w with shared } (Function.update γ t γ')) (· ∈ shared.files))
    (runs : γ'.runs = (γ t).runs) (job : γ'.job.Current shared.dns)
    (new : ∀ slot u, γ'.job.slot = some slot → (γ u).job.slot = some slot → u = t) :
    Accounts opt k { w with shared } (Function.update γ t γ') := by
  obtain ⟨rest, reach, moved, single, _⟩ := steps
  have numbered := accounts.numbered
  have engaged := accounts.engaged
  have forwards := accounts.forwards
  have after : Engaged shared (Function.update γ t γ') := by
    refine engaged.goes (fun u _ eh known => ?_) (fun u other => ?_) (fun eh known => ?_) job new
    · rw [rest]
      exact (engaged.runs u eh known).1
    · exact (engaged.jobs u).kept single moved (others u other)
    · rw [rest]
      rw [runs] at known
      exact engaged.runs t eh known
  refine ⟨owned, after, ?_, ?_, reach, ?_⟩
  · show Numbered shared
    rw [rest]
    exact ⟨numbered.fds, numbered.opened, numbered.linked, numbered.gone⟩
  · show ∀ u ∈ shared.uses, _
    rw [rest]
    exact accounts.uses
  · show Forwards opt k shared
    rw [rest]
    exact ⟨forwards.forwarder, forwards.pairs, forwards.log⟩

theorem owners_steps {s : Shared A W} {a : Dns.Action Callback A} {w : World (signature A W) Thread (Shared A W)}
    (steps : Steps opt w.shared s a) {o : Owner} (other : ∀ cb, o ≠ .callback cb) :
    owners { w with shared := s } γ o = owners w γ o := by
  cases o with
  | thread u => rfl
  | scheduled l => rfl
  | handler eh =>
      show (if eh ∈ s.registered then (eh.files : Multiset File) else 0) = _
      rw [steps.rest]
      rfl
  | callback cb => exact absurd rfl (other cb)
  | link h =>
      simp only [owners]
      rw [steps.rest]

/-- No callback is passed to `Resolve` or called. -/
theorem Accounts.dnsQuiet (accounts : Accounts opt k w γ) {a : Dns.Action Callback A}
    (steps : Steps opt w.shared shared a) (issues : a.issues = [])
    (calling : w.shared.dns.calling a = []) (others : ∀ u, u ≠ t → ¬ (γ u).job.Claims a)
    (holds : γ'.holds = (γ t).holds)
    (runs : γ'.runs = (γ t).runs) (job : γ'.job.Current shared.dns)
    (new : ∀ slot u, γ'.job.slot = some slot → (γ u).job.slot = some slot → u = t) :
    Accounts opt k { w with shared } (Function.update γ t γ') := by
  refine accounts.steps steps others ?_ runs job new
  refine accounts.owned.congr (fun o => ?_) fun file => ?_
  · by_cases here : o = .thread t
    · subst here
      rw [owners_self, holds]
      rfl
    · rw [owners_other here]
      cases o with
      | callback cb =>
          have waiting := steps.waiting cb
          rw [issues, calling] at waiting
          have waiting : shared.dns.waiting cb = w.shared.dns.waiting cb := waiting
          rw [owners, owners, waiting]
      | thread | scheduled | handler | link => exact owners_steps steps nofun
  · rw [steps.rest]

/-- `Resolve` is called. -/
theorem Accounts.resolve (accounts : Accounts opt k w γ) {host_port : Dns.HostPort} {cb : Callback}
    (stepped : w.shared.dnsStep opt (.call host_port cb) = some shared)
    (mine : cb.client ∈ (γ t).holds) : Accounts opt k { w with shared }
      (Function.update γ t { γ t with
        holds := (γ t).holds.erase cb.client, job := .arriving w.shared.dns.calls.length cb }) := by
  have steps := steps_of_dnsStep accounts.dns stepped
  have here : ∃ now, shared.dns.calls[w.shared.dns.calls.length]? = some (.locking host_port cb now) := by
    have moved := steps.moved
    generalize shared.dns = dns at moved
    cases moved with
    | call fresh => exact ⟨_, List.getElem?_concat_length⟩
    | dangles found uses erased => exact absurd erased (steps.single.node_ne_none found uses)
  refine accounts.steps steps (fun u _ => ?_) ?_ rfl ?_ ?_
  · cases (γ u).job <;> simp [Job.Claims]
  · have waits : ∀ other, shared.dns.waiting other = w.shared.dns.waiting other + [cb].count other := by
      intro other
      exact steps.waiting other
    have moves : Owned (owners { w with shared } (Function.update γ t { γ t with
        holds := (γ t).holds.erase cb.client, job := .arriving w.shared.dns.calls.length cb }))
        (· ∈ w.shared.files) := by
      refine accounts.owned.move (a := .thread t) (b := .callback cb) nofun {cb.client} ?_ ?_ ?_
      · rw [owners_self, Multiset.singleton_add, Multiset.cons_erase mine]
        rfl
      · show Multiset.replicate (shared.dns.waiting cb) cb.client = _
        rw [waits, List.count_singleton_self, Multiset.replicate_succ, Multiset.singleton_add]
        rfl
      · intro o other different
        rw [owners_other other]
        cases o with
        | callback y =>
            have apart : cb ≠ y := fun same => different (by rw [same])
            have none : [cb].count y = 0 := by simp [apart]
            rw [owners, owners, waits, none, Nat.add_zero]
        | thread | scheduled | handler | link => exact owners_steps steps nofun
    refine moves.congr (fun _ => rfl) fun file => ?_
    rw [steps.rest]
  · obtain ⟨now, found⟩ := here
    exact ⟨host_port, now, found⟩
  · rintro slot u ⟨⟩ again
    have current := accounts.engaged.jobs u
    cases job : (γ u).job with
    | none => simp [job, Job.slot] at again
    | arriving i other =>
        rw [job] at current again
        obtain ⟨_, _, found⟩ := current
        cases again
        exact absurd (List.getElem?_eq_some_iff.mp found).1 (Nat.lt_irrefl _)
    | due i other =>
        rw [job] at current again
        obtain ⟨_, found, _⟩ := current
        cases again
        exact absurd (List.getElem?_eq_some_iff.mp found).1 (Nat.lt_irrefl _)
    | calling j callbacks => simp [job, Job.slot] at again

/-- A callback is called. -/
theorem Accounts.calls (accounts : Accounts opt k w γ) {a : Dns.Action Callback A} {cb : Callback}
    {job : Job} (stepped : w.shared.dnsStep opt a = some shared) (issues : a.issues = [])
    (calling : w.shared.dns.calling a = [cb]) (others : ∀ u, u ≠ t → ¬ (γ u).job.Claims a)
    (current : job.Current shared.dns)
    (new : ∀ slot u, job.slot = some slot → (γ u).job.slot = some slot → u = t) :
    Accounts opt k { w with shared }
      (Function.update γ t { γ t with holds := cb.client ::ₘ (γ t).holds, job }) := by
  have steps := steps_of_dnsStep accounts.dns stepped
  refine accounts.steps steps others ?_ rfl current new
  have waits : ∀ other, w.shared.dns.waiting other = shared.dns.waiting other + [cb].count other := by
    intro other
    have waiting := steps.waiting other
    rw [issues, calling] at waiting
    exact waiting.symm
  have moves : Owned (owners { w with shared } (Function.update γ t { γ t with
      holds := cb.client ::ₘ (γ t).holds, job })) (· ∈ w.shared.files) := by
    refine accounts.owned.move (a := .callback cb) (b := .thread t) nofun {cb.client} ?_
      owners_self ?_
    · show Multiset.replicate (w.shared.dns.waiting cb) cb.client =
        {cb.client} + Multiset.replicate (shared.dns.waiting cb) cb.client
      rw [waits, List.count_singleton_self, Multiset.replicate_succ, Multiset.singleton_add]
    · intro o different other
      rw [owners_other other]
      cases o with
      | callback y =>
          have apart : cb ≠ y := fun same => different (by rw [same])
          have none : [cb].count y = 0 := by simp [apart]
          rw [owners, owners, waits y, none, Nat.add_zero]
      | thread | scheduled | handler | link => exact owners_steps steps nofun
  refine moves.congr (fun _ => rfl) fun file => ?_
  rw [steps.rest]

/-- A step that is nobody's job. -/
theorem Accounts.unclaimed (accounts : Accounts opt k w γ) {a : Dns.Action Callback A}
    (stepped : w.shared.dnsStep opt a = some shared) (issues : a.issues = [])
    (calling : w.shared.dns.calling a = []) (nobody : ∀ job : Job, ¬ job.Claims a) :
    Accounts opt k { w with shared } γ := by
  have steps := steps_of_dnsStep accounts.dns stepped
  have engaged := accounts.engaged
  have after : Accounts opt k { w with shared } (Function.update γ .main (γ .main)) :=
    accounts.dnsQuiet steps issues calling (fun u _ => nobody _) rfl rfl
      ((engaged.jobs .main).kept steps.single steps.moved (nobody _))
      fun slot u known again => engaged.once u .main slot again known
  rwa [Function.update_eq_self] at after

/-- No other thread has a job about the same. -/
theorem Engaged.apart {s : Shared A W} (engaged : Engaged s γ) {slot : ℕ ⊕ ℕ}
    (mine : (γ t).job.slot = some slot) {a : Dns.Action Callback A}
    (claims : ∀ job : Job, job.Claims a → job.slot = some slot) (u : Thread) (other : u ≠ t) :
    ¬ (γ u).job.Claims a :=
  fun theirs => other (engaged.once u t slot (claims _ theirs) mine)

theorem Job.of_lockCall {i : ℕ} (job : Job) (claims : job.Claims (.lockCall i : Dns.Action Callback A)) :
    job.slot = some (.inl i) := by
  cases job <;> simp_all [Job.Claims, Job.slot]

theorem Job.of_answerCall {i : ℕ} (job : Job)
    (claims : job.Claims (.answerCall i : Dns.Action Callback A)) : job.slot = some (.inl i) := by
  cases job <;> simp_all [Job.Claims, Job.slot]

theorem Job.of_callback {j : ℕ} (job : Job)
    (claims : job.Claims (.callback j : Dns.Action Callback A)) : job.slot = some (.inr j) := by
  cases job <;> simp_all [Job.Claims, Job.slot]

theorem Job.of_relock {j : ℕ} (job : Job)
    (claims : job.Claims (.relock j : Dns.Action Callback A)) : job.slot = some (.inr j) := by
  cases job <;> simp_all [Job.Claims, Job.slot]

/-- `Resolve` has the mutex: the callback is queued, or it is going to be called. -/
theorem Accounts.lockCall (accounts : Accounts opt k w γ) {i : ℕ} {cb : Callback}
    (stepped : w.shared.dnsStep opt (.lockCall i) = some shared)
    (arriving : (γ t).job = .arriving i cb) : Accounts opt k { w with shared }
      (Function.update γ t { γ t with
        job := (γ t).job.ofCall i (shared.dns.calls[i]?.getD .done) }) := by
  have steps := steps_of_dnsStep accounts.dns stepped
  have engaged := accounts.engaged
  have mine : (γ t).job.slot = some (.inl i) := by
    rw [arriving]
    rfl
  obtain ⟨host_port, now, found⟩ : (Job.arriving i cb).Current w.shared.dns := arriving ▸ engaged.jobs t
  have inside := (List.getElem?_eq_some_iff.mp found).1
  have becomes : (γ t).job.ofCall i (shared.dns.calls[i]?.getD .done) = .none ∨
      ∃ answer, shared.dns.calls[i]? = some (.calling answer) ∧ answer.cb = cb ∧
        (γ t).job.ofCall i (shared.dns.calls[i]?.getD .done) = .due i cb := by
    have moved := steps.moved
    rw [arriving]
    generalize shared.dns = dns at moved
    cases moved with
    | creates taken absent =>
        left
        simp [List.getElem?_set_self inside, Job.ofCall]
    | queues taken cached node busy =>
        left
        simp [List.getElem?_set_self inside, Job.ofCall]
    | answers taken cached node idle =>
        right
        cases found.symm.trans taken
        refine ⟨_, List.getElem?_set_self inside, rfl, ?_⟩
        simp [List.getElem?_set_self inside, Job.ofCall]
    | dangles taken uses erased => exact absurd erased (steps.single.node_ne_none taken uses)
  refine accounts.dnsQuiet steps rfl rfl (engaged.apart mine Job.of_lockCall) rfl rfl ?_ ?_
  · rcases becomes with none | ⟨answer, called, same, due⟩
    · rw [none]
      trivial
    · rw [due]
      exact ⟨answer, called, same⟩
  · intro slot u known again
    rcases becomes with none | ⟨answer, called, same, due⟩
    · rw [none] at known
      cases known
    · rw [due] at known
      obtain rfl : Sum.inl i = slot := Option.some.inj known
      exact engaged.once u t _ again mine

theorem Accounts.answerCall (accounts : Accounts opt k w γ) {i : ℕ} {cb : Callback}
    (stepped : w.shared.dnsStep opt (.answerCall i) = some shared) (due : (γ t).job = .due i cb) :
    Accounts opt k { w with shared } (Function.update γ t { γ t with
      holds := cb.client ::ₘ (γ t).holds, job := .none }) := by
  have engaged := accounts.engaged
  have mine : (γ t).job.slot = some (.inl i) := by
    rw [due]
    rfl
  obtain ⟨answer, found, rfl⟩ : (Job.due i cb).Current w.shared.dns := due ▸ engaged.jobs t
  refine accounts.calls stepped rfl ?_ (engaged.apart mine Job.of_answerCall) trivial nofun
  simp only [Dns.State.calling, found]

theorem Accounts.callback (accounts : Accounts opt k w γ) {j : ℕ} {cb : Callback}
    {rest : List Callback} (stepped : w.shared.dnsStep opt (.callback j) = some shared)
    (calling : (γ t).job = .calling j (cb :: rest)) :
    Accounts opt k { w with shared } (Function.update γ t { γ t with
      holds := cb.client ::ₘ (γ t).holds, job := .calling j rest }) := by
  have steps := steps_of_dnsStep accounts.dns stepped
  have engaged := accounts.engaged
  have mine : (γ t).job.slot = some (.inr j) := by
    rw [calling]
    rfl
  obtain ⟨it, addr, index, now, seen, found⟩ : (Job.calling j (cb :: rest)).Current w.shared.dns :=
    calling ▸ engaged.jobs t
  have current : (Job.calling j rest).Current shared.dns := by
    have moved := steps.moved
    generalize shared.dns = dns at moved
    cases moved with
    | callsBack taken =>
        cases found.symm.trans taken
        have inside := (List.getElem?_eq_some_iff.mp found).1
        exact ⟨_, _, _, _, _, List.getElem?_set_self inside⟩
    | dangles taken uses erased => exact absurd erased (steps.single.node_ne_none taken uses)
  refine accounts.calls stepped rfl ?_ (engaged.apart mine Job.of_callback) current ?_
  · simp only [Dns.State.calling, found]
  · intro slot u known again
    obtain rfl : Sum.inr j = slot := Option.some.inj known
    exact engaged.once u t _ again mine

theorem Accounts.relock (accounts : Accounts opt k w γ) {j : ℕ}
    (stepped : w.shared.dnsStep opt (.relock j) = some shared)
    (calling : (γ t).job = .calling j []) :
    Accounts opt k { w with shared } (Function.update γ t { γ t with job := .none }) := by
  have mine : (γ t).job.slot = some (.inr j) := by
    rw [calling]
    rfl
  exact accounts.dnsQuiet (steps_of_dnsStep accounts.dns stepped) rfl rfl
    (accounts.engaged.apart mine Job.of_relock) rfl rfl trivial nofun

/-- `ProcessCacheEntry` gives up the mutex, perhaps with the queue of its entry. -/
theorem Accounts.drains (accounts : Accounts opt k w γ) {j : ℕ} {a : Dns.Action Callback A}
    (stepped : w.shared.dnsStep opt a = some shared) (issues : a.issues = [])
    (calling : w.shared.dns.calling a = []) (nobody : ∀ job : Job, ¬ job.Claims a)
    (before : ∀ it callbacks addr index now seen,
      w.shared.dns.workers[j]? ≠ some (.calling it callbacks addr index now seen)) :
    Accounts opt k { w with shared } (Function.update γ t { γ t with
      job := .ofWorker j (shared.dns.workers[j]?.getD .done) }) := by
  have becomes : Job.ofWorker j (shared.dns.workers[j]?.getD .done) = .none ∨
      ∃ it callbacks addr index now seen,
        shared.dns.workers[j]? = some (.calling it callbacks addr index now seen) ∧
        Job.ofWorker j (shared.dns.workers[j]?.getD .done) = .calling j callbacks := by
    cases after : shared.dns.workers[j]? with
    | none => exact .inl rfl
    | some worker =>
        cases worker with
        | calling it callbacks addr index now seen =>
            exact .inr ⟨it, callbacks, addr, index, now, seen, rfl, rfl⟩
        | locking | resolving | resolved | recording | scheduling | done | dangling => exact .inl rfl
  refine accounts.dnsQuiet (steps_of_dnsStep accounts.dns stepped) issues calling
    (fun u _ => nobody _) rfl rfl ?_ ?_
  · rcases becomes with none | ⟨it, callbacks, addr, index, now, seen, found, same⟩
    · rw [none]
      trivial
    · rw [same]
      exact ⟨it, addr, index, now, seen, found⟩
  · intro slot u known again
    rcases becomes with none | ⟨it, callbacks, addr, index, now, seen, found, same⟩
    · rw [none] at known
      cases known
    · rw [same] at known
      cases known
      have current := accounts.engaged.jobs u
      cases job : (γ u).job with
      | none | arriving | due => simp [job, Job.slot] at again
      | calling i theirs =>
          rw [job] at current again
          cases again
          obtain ⟨_, _, _, _, _, taken⟩ := current
          exact absurd taken (before _ _ _ _ _ _)

theorem Accounts.lockWorker (accounts : Accounts opt k w γ) {j : ℕ}
    (stepped : w.shared.dnsStep opt (.lockWorker j) = some shared) :
    Accounts opt k { w with shared } (Function.update γ t { γ t with
      job := .ofWorker j (shared.dns.workers[j]?.getD .done) }) := by
  refine accounts.drains stepped rfl rfl (fun job => by cases job <;> simp [Job.Claims]) ?_
  have steps := steps_of_dnsStep accounts.dns stepped
  intro it callbacks addr index now seen found
  have moved := steps.moved
  generalize shared.dns = dns at moved
  cases moved with
  | erases taken | looksUp taken | skips taken => cases found.symm.trans taken
  | dangles taken uses erased => exact absurd erased (steps.single.node_ne_none taken uses)

theorem Accounts.lockRecord (accounts : Accounts opt k w γ) {j : ℕ}
    (stepped : w.shared.dnsStep opt (.lockRecord j) = some shared) :
    Accounts opt k { w with shared } (Function.update γ t { γ t with
      job := .ofWorker j (shared.dns.workers[j]?.getD .done) }) := by
  refine accounts.drains stepped rfl rfl (fun job => by cases job <;> simp [Job.Claims]) ?_
  have steps := steps_of_dnsStep accounts.dns stepped
  intro it callbacks addr index now seen found
  have moved := steps.moved
  generalize shared.dns = dns at moved
  cases moved with
  | records taken => cases found.symm.trans taken
  | dangles taken uses erased => exact absurd erased (steps.single.node_ne_none taken uses)

end Accounts

end Hcproxy.Proxy
