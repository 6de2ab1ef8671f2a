import Hcproxy.ResolverRefines

set_option autoImplicit false

namespace Hcproxy.Dns

variable {κ A : Type} {opt : Options}

/-- A call of `getaddrinfo` is under way. -/
def Worker.resolves : Worker κ A → Bool
  | .resolving _ => true
  | _ => false

/-- What it is called for: `it->first`. -/
def Worker.host_port (s : State κ A) : Worker κ A → Option HostPort
  | .resolving it => (s.node it).map Node.key
  | _ => none

/-- The concurrent calls of `getaddrinfo`. -/
def State.lookups (s : State κ A) : List HostPort := s.workers.filterMap (Worker.host_port s)

theorem resolves_of_host_port {s : State κ A} {w : Worker κ A} {name : HostPort}
    (named : w.host_port s = some name) :
    ∃ it n, w = .resolving it ∧ s.node it = some n ∧ n.key = name := by
  cases w with
  | resolving it =>
      obtain ⟨n, node, same⟩ := Option.map_eq_some_iff.mp named
      exact ⟨it, n, rfl, node, same⟩
  | locking | resolved | recording | calling | scheduling | done | dangling => cases named

/-- All concurrent calls are for different addresses. -/
theorem lookups_nodup {s : State κ A} (single : SingleTask s) (unique : UniqueKeys s) :
    s.lookups.Nodup := by
  apply List.pairwise_filterMap.mpr
  apply List.pairwise_iff_getElem.mpr
  intro i j insideI insideJ before name named other namedOther same
  obtain ⟨it, n, resolving, node, key⟩ := resolves_of_host_port named
  obtain ⟨k, m, resolving', node', key'⟩ := resolves_of_host_port namedOther
  have entry : it = k := unique it k n m node node' (key.trans (same.trans key'.symm))
  subst entry
  have foundI := List.getElem?_eq_getElem insideI
  have foundJ := List.getElem?_eq_getElem insideJ
  rw [resolving] at foundI
  rw [resolving'] at foundJ
  have index : i = j := single.same_worker foundI foundJ (if_pos rfl) (if_pos rfl)
  omega

/-- The entry of such a call is in `cache_`. -/
theorem length_lookups {s : State κ A} (single : SingleTask s) :
    s.lookups.length = s.workers.countP Worker.resolves := by
  rw [State.lookups, List.length_filterMap_eq_countP]
  apply List.countP_congr
  intro w member
  cases w with
  | resolving it =>
      obtain ⟨j, found⟩ := List.mem_iff_getElem?.mp member
      have alive := single.node_ne_none found (if_pos rfl)
      obtain ⟨n, node⟩ := Option.ne_none_iff_exists'.mp alive
      simp [Worker.host_port, Worker.resolves, node]
  | locking | resolved | recording | calling | scheduling | done | dangling =>
      simp [Worker.host_port, Worker.resolves]

theorem Reachable.uniqueKeys [DecidableEq κ] {s : State κ A} (reach : Reachable opt s) :
    UniqueKeys s := by
  refine Runs.Reachable.strengthen (fun _ => ReachableIf.singleTask) ?_ ?_ reach
  · rintro s ⟨clock, rfl⟩ i j m n found
    simp [State.node] at found
  · rintro s t single unique ⟨a, -, stepped⟩
    exact uniqueKeys_kept single unique (step_cases stepped)

end Hcproxy.Dns

namespace Hcproxy.Resolver

variable {κ A : Type} {opt : Dns.Options} {numThreads : ℕ} {s : State κ A}

/-- Each execution of `ProcessCacheEntry` has a thread of its own. -/
theorem Wired.executions (wired : Wired s) {p : Dns.Worker κ A → Bool}
    (active : ∀ w, p w = true → w ≠ .done) : s.dns.workers.countP p ≤ s.threads.length := by
  apply Threads.countP_le_length Thread.processing
  · intro i j same
    cases same
    rfl
  · intro j w found chosen
    obtain ⟨k, thread⟩ := wired.jobs j w found (active w chosen)
    exact List.mem_of_getElem? thread

/-- `num_dns_resolution_threads` is the maximum number of concurrent calls of `getaddrinfo`, and all
concurrent calls are for different addresses. -/
theorem lookups_bounded [DecidableEq κ] (reach : Reachable opt numThreads s) :
    s.dns.workers.countP Dns.Worker.resolves ≤ numThreads ∧
      s.dns.lookups.length = s.dns.workers.countP Dns.Worker.resolves ∧ s.dns.lookups.Nodup := by
  have wired := reach.wired
  have threads := (ThreadPool.reachable_inv reach.pool).threads
  obtain ⟨d, reachable, same, -⟩ := simulates.reachable reach
  have single : Dns.SingleTask d := Dns.ReachableIf.singleTask reachable
  have lookups : d.lookups = s.dns.lookups := by
    rw [same]
    rfl
  have workers : d.workers = s.dns.workers := by
    rw [same]
  refine ⟨?_, ?_, ?_⟩
  · rw [← threads, ← wired.length]
    apply wired.executions
    rintro w resolves rfl
    cases resolves
  · rw [← lookups, ← workers]
    exact Dns.length_lookups single
  · rw [← lookups]
    exact Dns.lookups_nodup single (Dns.Reachable.uniqueKeys reachable)

/-- Two threads that look up two names. -/
def twoNames : State ℕ ℕ where
  dns := {
    clock := 5
    nodes := [{ key := [1], data := { callbacks := [0] } },
      { key := [2], data := { callbacks := [1] } }]
    calls := [.done, .done]
    workers := [.resolving 0, .resolving 1]
    issued := [0, 1] }
  pool := {
    clock := 5, lastIdx := 2, workers := [.running 0, .running 1], schedulers := [.done, .done] }
  threads := [.processing 0, .processing 1]

theorem twoNames_reachable : Reachable ⟨1, 1, 1⟩ 2 twoNames :=
  Runs.replay_reachable
    [.pool (.notifyWorker 0 none), .enter 0, .pool (.lockWorker 1), .enter 1,
      .resolver (.lockWorker 0), .resolver (.lockWorker 1)]
    takenOne_reachable rfl

theorem lookups_bounded_twoNames :
    twoNames.dns.lookups = [[1], [2]] ∧ twoNames.dns.lookups.length ≤ 2 ∧
      twoNames.dns.lookups.Nodup := by
  obtain ⟨bound, calls, different⟩ := lookups_bounded twoNames_reachable
  exact ⟨rfl, calls ▸ bound, different⟩

end Hcproxy.Resolver
