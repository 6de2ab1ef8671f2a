import Hcproxy.ForwarderUses

set_option autoImplicit false

namespace Hcproxy.Forwarder

open Exec (Holds Relates)
open Ownership (Uses)
open Threads

variable {W : Type} (k : Kernel W)

/-- Whether the socket of a link has been closed; one that there is no link for has not. -/
def State.isClosed (s : State W) (h : Sock) : Bool := s.pairs[h.1]?.any (·.isClosed h.2)

def State.Fair (s : State W) : Prop := ∀ (i : ℕ) (p : Pair), s.pairs[i]? = some p → p.Fair

/-- What a step of the loop, in which `made` pairs are made, has done to the sockets. -/
structure State.Tracks (s t : State (Watched W)) (made : ℕ) (log : List (Sock × Bool)) : Prop where
  appended : t.world.log = s.world.log ++ log
  uses : Uses s.isClosed log t.isClosed
  known : ∀ use ∈ log, use.1.1 < t.pairs.length
  length : t.pairs.length = s.pairs.length + made
  fair : t.Fair

theorem State.Tracks.quiet {s t : State (Watched W)} (fair : s.Fair)
    (log : t.world.log = s.world.log) (pairs : t.pairs = s.pairs) : s.Tracks t 0 [] := by
  refine ⟨?_, ?_, nofun, by rw [pairs]; rfl, ?_⟩
  · rw [log, List.append_nil]
  · show t.isClosed = s.isClosed
    unfold State.isClosed
    rw [pairs]
  · intro i p found
    exact fair i p (pairs ▸ found)

theorem State.Tracks.trans {s t u : State (Watched W)} {m n : ℕ} {first second : List (Sock × Bool)}
    (before : s.Tracks t m first) (behind : t.Tracks u n second) :
    s.Tracks u (m + n) (first ++ second) := by
  refine ⟨?_, before.uses.append behind.uses, ?_, ?_, behind.fair⟩
  · rw [behind.appended, before.appended, List.append_assoc]
  · intro use member
    rcases List.mem_append.mp member with member | member
    · have inside := before.known use member
      have more := behind.length
      omega
    · exact behind.known use member
  · rw [behind.length, before.length, Nat.add_assoc]

/-- A method of a link of the pair `i` has been run. -/
theorem tracks_leave {s : State (Watched W)} {i : ℕ} {p : Pair} (fair : s.Fair)
    (found : s.pairs[i]? = some p) {m : Exec (Watched W) PUnit} (next : Phase)
    (plays : Relates Plays m (s.ctx i p)) :
    ∃ log, s.Tracks (s.leave (m (s.ctx i p)) next) 0 log := by
  have after : ∀ {d : Ctx (Watched W)} (phase : Phase), Plays (s.ctx i p) d →
      ∃ log, s.Tracks ⟨d.loop, d.clock, d.world, s.pairs.set d.id d.pair, phase⟩ 0 log := by
    intro d phase plays
    obtain ⟨⟨id, log, appended, uses⟩, fairD⟩ := plays (fair i p found)
    have here : d.id = i := id
    have inside : i < s.pairs.length := (List.getElem?_eq_some_iff.mp found).1
    refine ⟨log.map fun use => ((i, use.1), use.2), appended.trans rfl, ?_, ?_, ?_, ?_⟩
    · refine uses.embed (Prod.mk_right_injective i) (fun x => ?_) (fun x => ?_) ?_
      · show s.pairs[i]?.any _ = p.isClosed x
        rw [found]
        rfl
      · show (s.pairs.set d.id d.pair)[i]?.any _ = d.pair.isClosed x
        rw [here, List.getElem?_set_self inside]
        rfl
      · rintro ⟨j, x⟩ other
        show (s.pairs.set d.id d.pair)[j]?.any _ = s.pairs[j]?.any _
        have different : i ≠ j := fun same => other x (by rw [same])
        rw [here, List.getElem?_set_ne different]
    · intro use member
      obtain ⟨use, _, rfl⟩ := List.mem_map.mp member
      show i < (s.pairs.set d.id d.pair).length
      rwa [List.length_set]
    · exact List.length_set
    · intro j q foundQ
      have foundQ : (s.pairs.set d.id d.pair)[j]? = some q := foundQ
      rw [here] at foundQ
      by_cases same : i = j
      · subst same
        rw [List.getElem?_set_self inside] at foundQ
        cases foundQ
        exact fairD
      · rw [List.getElem?_set_ne same] at foundQ
        exact fair j q foundQ
  unfold Relates Holds at plays
  cases ran : m (s.ctx i p) with
  | ok a d =>
      rw [ran] at plays
      exact after next plays
  | error why d =>
      rw [ran] at plays
      exact after (.stopped why) plays

theorem tracks_run {s : State (Watched W)} (fair : s.Fair) (i : ℕ)
    {m : Exec (Watched W) PUnit} (next : Phase) (plays : ∀ c, Relates Plays m c) :
    ∃ log, s.Tracks (s.run i m next) 0 log := by
  cases found : s.pairs[i]? with
  | none =>
      refine ⟨[], .quiet fair ?_ ?_⟩
      · simp only [State.run, found]
      · simp only [State.run, found]
  | some p =>
      rw [State.run_eq found]
      exact tracks_leave fair found next (plays _)

theorem tracks_runNew (opt : Options) {s : State (Watched W)} (fair : s.Fair)
    (next : Phase) : ∃ log, s.Tracks (s.runNew k.watched opt next) 1 log := by
  have fresh : Pair.Fair {} := fun x _ => by cases x <;> rfl
  have extended : s.Tracks { s with pairs := s.pairs ++ [({} : Pair)] } 1 [] := by
    refine ⟨(List.append_nil _).symm, ?_, nofun, List.length_append, ?_⟩
    · funext ⟨j, x⟩
      show (s.pairs ++ [({} : Pair)])[j]?.any _ = s.pairs[j]?.any _
      by_cases inside : j < s.pairs.length
      · rw [List.getElem?_append_left inside]
      · rw [List.getElem?_eq_none (Nat.not_lt.mp inside)]
        cases found : (s.pairs ++ [({} : Pair)])[j]? with
        | none => rfl
        | some q =>
            rcases of_getElem?_snoc found with ⟨before, _⟩ | ⟨_, rfl⟩
            · exact absurd before inside
            · cases x <;> rfl
    · intro j q found
      rcases of_getElem?_snoc found with ⟨_, before⟩ | ⟨_, rfl⟩
      · exact fair j q before
      · exact fresh
  have found : (s.pairs ++ [({} : Pair)])[s.pairs.length]? = some {} := by simp
  obtain ⟨log, tracks⟩ := tracks_leave extended.fair found next (plays_new k opt rfl)
  exact ⟨_, extended.trans tracks⟩

theorem tracks_holdAll {s : State (Watched W)} (fair : s.Fair) (batch : List Event) :
    ∃ log, s.Tracks (s.holdAll batch) 0 log := by
  induction batch generalizing s with
  | nil => exact ⟨[], .quiet fair rfl rfl⟩
  | cons ev rest ih =>
      cases ev with
      | popFunc => exact ih fair
      | io i x events =>
          obtain ⟨_, first⟩ := tracks_run fair i s.phase fun c =>
            (spares_hold x c).mono Spares.plays
          obtain ⟨_, second⟩ := ih first.fair
          exact ⟨_, first.trans second⟩

theorem step_pops {s t : State (Watched W)} {rest : List Event} {fuel : ℕ} {leftFirst : Bool}
    {opt : Options} (fair : s.Fair) (pops : s.phase = .dispatching (.popFunc :: rest))
    (stepped : step k.watched opt s (.dispatch fuel leftFirst) = some t) :
    ∃ log, s.Tracks t 1 log := by
  simp only [step, pops, Option.some.injEq] at stepped
  subst stepped
  exact tracks_runNew k opt fair _

/-- A step that runs no function of the pipe. -/
theorem step_tracks {s t : State (Watched W)} {opt : Options} {a : Action (Watched W)}
    (fair : s.Fair) (quiet : ∀ world, a = .outside world → world.log = s.world.log)
    (pops : ∀ fuel leftFirst rest, a = .dispatch fuel leftFirst →
      s.phase ≠ .dispatching (.popFunc :: rest))
    (stepped : step k.watched opt s a = some t) : ∃ log, s.Tracks t 0 log := by
  cases moved_of_step _ stepped with
  | outside world => exact ⟨[], .quiet fair (quiet world rfl) rfl⟩
  | @wait batch =>
      have started : s.Tracks { s with
          world := k.watched.wait s.world batch, phase := .dispatching batch } 0 [] :=
        .quiet fair rfl rfl
      obtain ⟨log, tracks⟩ := tracks_holdAll started.fair batch
      exact ⟨_, started.trans tracks⟩
  | popFunc phase => exact absurd phase (pops _ _ _ rfl)
  | @io fuel leftFirst i x events =>
      exact tracks_run fair i _ fun c => plays_dispatch k fuel x events leftFirst c
  | dispatched | idle | early => exact ⟨[], .quiet fair rfl rfl⟩
  | expires =>
      have later : s.Tracks { s with
          clock := s.clock + (k.watched.elapse s.world).1
          world := (k.watched.elapse s.world).2 } 0 [] := .quiet fair rfl rfl
      obtain ⟨log, tracks⟩ := tracks_run later.fair _ .expiring fun c => plays_expire k _ c
      exact ⟨_, later.trans tracks⟩

theorem fair_of_reachable {s : State W} {opt : Options} (reach : Reachable k opt s) :
    s.Fair ∧ ∀ (i : ℕ) (p : Pair), s.pairs[i]? = some p →
      ∀ x, p.isClosed x = !(p.link x).event_loop := by
  obtain ⟨temps, safe⟩ := safe_of_reachable k reach
  have counted : ∀ (i : ℕ) (p : Pair), s.pairs[i]? = some p → ∀ x,
      (p.link x).event_loop = (p.link x).isOpen ∧
        (p.link x).closes + (p.link x).isOpen.toNat = 1 := by
    intro i p found x
    rcases safe.pairs i p found with intact | ⟨discarded, _⟩
    · exact ⟨(intact.owned x).registered, (intact.owned x).closes⟩
    · have link := discarded.links x
      simp [Link.isOpen, link.registered, link.readable, link.writable, link.closes]
  have closed : ∀ (i : ℕ) (p : Pair), s.pairs[i]? = some p → ∀ x,
      p.isClosed x = !(p.link x).isOpen := by
    intro i p found x
    have once := (counted i p found x).2
    cases isOpen : (p.link x).isOpen with
    | true =>
        rw [isOpen, Bool.toNat_true] at once
        exact decide_eq_false (by omega)
    | false =>
        rw [isOpen, Bool.toNat_false] at once
        exact decide_eq_true (by omega)
  refine ⟨fun i p found x isOpen => ?_, fun i p found x => ?_⟩
  · rw [closed i p found, isOpen]
    rfl
  · rw [closed i p found, (counted i p found x).1]

end Hcproxy.Forwarder
