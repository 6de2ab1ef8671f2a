import Hcproxy.Lib.Programs

set_option autoImplicit false

namespace Programs

variable {S : Signature} {T σ E : Type}

/-- An operation of any thread, between states that have the invariant. -/
def Interferes (sys : System S T σ E) (inv : σ → Prop) (s s' : σ) : Prop :=
  inv s ∧ inv s' ∧ ∃ o e r, sys.exec o e s = some (r, s')

/-- No operation of any thread makes it false. -/
def Stable (sys : System S T σ E) (inv P : σ → Prop) : Prop :=
  ∀ s s', Interferes sys inv s s' → P s → P s'

/-- What the operations of a system keep, what they need for it, and what is known of the functions
in its pipes. -/
structure Contract (sys : System S T σ E) where
  inv : σ → Prop
  pre : S.Op → σ → Prop
  fits : S.Fun → σ → Prop
  kept : ∀ s o e r s', inv s → pre o s → sys.exec o e s = some (r, s') → inv s'
  stable : ∀ f, Stable sys inv (fits f)

section Stable

variable {sys : System S T σ E} {inv P Q : σ → Prop}

theorem Stable.and (first : Stable sys inv P) (second : Stable sys inv Q) :
    Stable sys inv fun s => P s ∧ Q s :=
  fun s s' moves holds => ⟨first s s' moves holds.1, second s s' moves holds.2⟩

theorem Stable.exists {ι : Type} {P : ι → σ → Prop} (each : ∀ i, Stable sys inv (P i)) :
    Stable sys inv fun s => ∃ i, P i s :=
  fun s s' moves ⟨i, holds⟩ => ⟨i, each i s s' moves holds⟩

theorem stable_const (p : Prop) : Stable sys inv fun _ => p := fun _ _ _ holds => holds

/-- What has become of a state with the property. -/
def Since (sys : System S T σ E) (inv P : σ → Prop) (s : σ) : Prop :=
  ∃ earlier, P earlier ∧ Relation.ReflTransGen (Interferes sys inv) earlier s

theorem stable_since : Stable sys inv (Since sys inv P) :=
  fun _ _ moves ⟨earlier, holds, path⟩ => ⟨earlier, holds, path.tail moves⟩

theorem Stable.since (stable : Stable sys inv P) {s : σ} (since : Since sys inv P s) : P s := by
  obtain ⟨earlier, holds, path⟩ := since
  induction path with
  | refl => exact holds
  | tail _ moves ih => exact stable _ _ moves ih

end Stable

variable {sys : System S T σ E} (C : Contract sys)

/-- Assertions that stay true whatever other threads do. -/
abbrev Contract.Assertion := { P : σ → Prop // Stable sys C.inv P }

namespace Contract

variable {C}

/-- What an operation with this answer leaves behind. -/
def Assertion.after (P : C.Assertion) (o : S.Op) (r : S.Res o) : C.Assertion :=
  ⟨Since sys C.inv fun s' => ∃ s e, C.inv s ∧ C.inv s' ∧ P.1 s ∧ sys.exec o e s = some (r, s'),
    stable_since⟩

def Assertion.fits (f : S.Fun) : C.Assertion := ⟨C.fits f, C.stable f⟩

def Assertion.and (P Q : C.Assertion) : C.Assertion := ⟨fun s => P.1 s ∧ Q.1 s, P.2.and Q.2⟩

variable (C)

/-- Threads go on with assertions that they alone are responsible for. -/
def asserting : Discipline S T σ C.Assertion where
  inv w γ := C.inv w.shared ∧ (∀ l, ∀ f ∈ w.pipes l, C.fits f w.shared) ∧ ∀ t, (γ t).1 w.shared
  rests _ _ := True
  pre _ P o := ∀ s, C.inv s → P.1 s → C.pre o s
  post _ P o r Q := Q = P.after o r
  locks _ P _ Q := Q = P
  unlocks _ P _ Q := Q = P
  schedules _ P _ f Q := Q = P ∧ ∀ s, C.inv s → P.1 s → C.fits f s
  calls _ _ _ := True

variable {C}

section Rules

variable {t : T} {P Q : C.Assertion} {next : Prog S}

theorem Assertion.after_mono (implies : ∀ s, P.1 s → Q.1 s) {o : S.Op} {r : S.Res o} {s : σ}
    (holds : (P.after o r).1 s) : (Q.after o r).1 s := by
  obtain ⟨earlier, ⟨s₀, e, before, after, known, ran⟩, path⟩ := holds
  exact ⟨earlier, ⟨s₀, e, before, after, implies s₀ known, ran⟩, path⟩

/-- A thread may know more. -/
theorem asserting_mono {p : Prog S} (implies : ∀ s, P.1 s → Q.1 s)
    (follows : C.asserting.Follows t Q p) : C.asserting.Follows t P p := by
  induction p generalizing P Q with
  | ret => trivial
  | op o next ih =>
      refine ⟨fun s inv holds => follows.1 s inv (implies s holds), ?_⟩
      rintro r _ rfl
      exact ih r (fun s => Assertion.after_mono implies) (follows.2 r _ rfl)
  | lock m next ih =>
      obtain ⟨_, rfl, follows⟩ := follows
      exact ⟨P, rfl, ih implies follows⟩
  | unlock m next ih =>
      obtain ⟨_, rfl, follows⟩ := follows
      exact ⟨P, rfl, ih implies follows⟩
  | schedule l f next ih =>
      obtain ⟨_, ⟨rfl, fits⟩, follows⟩ := follows
      exact ⟨P, ⟨rfl, fun s inv holds => fits s inv (implies s holds)⟩, ih implies follows⟩
  | call c next ih => exact ⟨trivial, ih implies follows.2⟩

@[simp] theorem asserting_ret : C.asserting.Follows t P .ret ↔ True := Iff.rfl

@[simp] theorem asserting_lock {m : S.Mutex} :
    C.asserting.Follows t P (.lock m next) ↔ C.asserting.Follows t P next := by
  constructor
  · rintro ⟨_, rfl, follows⟩
    exact follows
  · exact fun follows => ⟨P, rfl, follows⟩

@[simp] theorem asserting_unlock {m : S.Mutex} :
    C.asserting.Follows t P (.unlock m next) ↔ C.asserting.Follows t P next := by
  constructor
  · rintro ⟨_, rfl, follows⟩
    exact follows
  · exact fun follows => ⟨P, rfl, follows⟩

@[simp] theorem asserting_call {c : S.Callback} :
    C.asserting.Follows t P (.call c next) ↔ C.asserting.Follows t P next :=
  ⟨fun follows => follows.2, fun follows => ⟨trivial, follows⟩⟩

theorem asserting_schedule {l : S.Loop} {f : S.Fun} (fits : ∀ s, C.inv s → P.1 s → C.fits f s)
    (after : C.asserting.Follows t P next) : C.asserting.Follows t P (.schedule l f next) :=
  ⟨P, ⟨rfl, fits⟩, after⟩

/-- The rule for operations: whatever the answer, the code goes on with an assertion that the
operation has made true. -/
theorem asserting_op {o : S.Op} {next : S.Res o → Prog S}
    (needs : ∀ s, C.inv s → P.1 s → C.pre o s) (Q : S.Res o → C.Assertion)
    (makes : ∀ s e r s', C.inv s → C.inv s' → P.1 s → sys.exec o e s = some (r, s') → (Q r).1 s')
    (after : ∀ r, C.asserting.Follows t (Q r) (next r)) :
    C.asserting.Follows t P (.op o next) := by
  refine ⟨needs, ?_⟩
  rintro r _ rfl
  refine asserting_mono (fun s holds => ?_) (after r)
  apply (Q r).2.since
  obtain ⟨earlier, ⟨s₀, e, before, inv, known, ran⟩, path⟩ := holds
  exact ⟨earlier, makes s₀ e r earlier before inv known ran, path⟩

/-- What the code knew before an operation it still knows behind it. -/
theorem asserting_learn {o : S.Op} {next : S.Res o → Prog S}
    (needs : ∀ s, C.inv s → P.1 s → C.pre o s) (L : S.Res o → C.Assertion)
    (learns : ∀ s e r s', C.inv s → C.inv s' → P.1 s → sys.exec o e s = some (r, s') → (L r).1 s')
    (after : ∀ r, C.asserting.Follows t (P.and (L r)) (next r)) :
    C.asserting.Follows t P (.op o next) := by
  refine asserting_op needs (fun r => P.and (L r)) ?_ after
  intro s e r s' before inv known ran
  exact ⟨P.2 s s' ⟨before, inv, o, e, r, ran⟩ known, learns s e r s' before inv known ran⟩

/-- An operation that the code learns nothing from. -/
theorem asserting_op_same {o : S.Op} {next : S.Res o → Prog S}
    (needs : ∀ s, C.inv s → P.1 s → C.pre o s)
    (after : ∀ r, C.asserting.Follows t P (next r)) : C.asserting.Follows t P (.op o next) :=
  asserting_op needs (fun _ => P)
    (fun s e r s' before inv known ran => P.2 s s' ⟨before, inv, o, e, r, ran⟩ known) after

end Rules

/-- What is in the pipes after one of them has changed. -/
theorem pipes_update [DecidableEq S.Loop] {pipes : S.Loop → List S.Fun} {l : S.Loop} {funs : List S.Fun}
    {fits : S.Fun → Prop} (others : ∀ m, ∀ f ∈ pipes m, fits f) (here : ∀ f ∈ funs, fits f) :
    ∀ m, ∀ f ∈ Function.update pipes l funs m, fits f := by
  intro m f member
  by_cases same : m = l
  · subst same
    rw [Function.update_self] at member
    exact here f member
  · rw [Function.update_of_ne same] at member
    exact others m f member

variable [DecidableEq T] [DecidableEq S.Mutex] [DecidableEq S.Loop]

/-- It is enough to look at the code of the system. -/
theorem asserting_sound
    (body : ∀ l f, C.asserting.Follows (sys.owner l) (.fits f) (sys.body f))
    (wake : ∀ t e s p, C.inv s → sys.wake t e s = some p →
      ∃ P : C.Assertion, P.1 s ∧ C.asserting.Follows t P p) :
    C.asserting.Sound sys fun _ _ _ => True := by
  have known : ∀ {γ : T → C.Assertion} {P : C.Assertion} {t : T} {s : σ}, (∀ u, (γ u).1 s) →
      P.1 s → ∀ u, (Function.update γ t P u).1 s := by
    intro γ P t s others holds u
    by_cases same : u = t
    · subst same
      rwa [Function.update_self]
    · rw [Function.update_of_ne same]
      exact others u
  have same : ∀ (γ : T → C.Assertion) t, Function.update γ t (γ t) = γ :=
    fun γ t => Function.update_eq_self t γ
  constructor
  · intro w γ t o e r shared inv pre _ ran
    obtain ⟨before, pipes, threads⟩ := inv
    have after := C.kept _ o e r shared before (pre _ before (threads t)) ran
    have moves : Interferes sys C.inv w.shared shared := ⟨before, after, o, e, r, ran⟩
    refine ⟨(γ t).after o r, rfl, after, ?_, known ?_ ?_⟩
    · exact fun l f member => C.stable f _ _ moves (pipes l f member)
    · exact fun u => (γ u).2 _ _ moves (threads u)
    · exact ⟨shared, ⟨w.shared, e, before, after, threads t, ran⟩, .refl⟩
  · intro w γ t m γ' inv locks _
    rw [show γ' = γ t from locks, same]
    exact inv
  · intro w γ t m γ' inv unlocks _
    rw [show γ' = γ t from unlocks, same]
    exact inv
  · intro w γ t l f γ' inv schedules
    obtain ⟨rfl, fits⟩ := schedules
    obtain ⟨before, pipes, threads⟩ := inv
    rw [same]
    refine ⟨before, pipes_update pipes ?_, threads⟩
    intro g member
    rcases List.mem_append.mp member with member | member
    · exact pipes l g member
    · cases List.mem_singleton.mp member
      exact fits _ before (threads t)
  · intro w γ l f rest inv _ pipe
    obtain ⟨before, pipes, threads⟩ := inv
    refine ⟨.fits f, body l f, before, pipes_update pipes ?_, known threads ?_⟩
    · exact fun g member => pipes l g (pipe ▸ List.mem_cons_of_mem f member)
    · exact pipes l f (pipe ▸ List.mem_cons_self)
  · intro w γ t e p inv _ woken
    obtain ⟨before, pipes, threads⟩ := inv
    obtain ⟨P, holds, follows⟩ := wake t e _ p before woken
    exact ⟨P, follows, before, pipes, known threads holds⟩

/-- In every state that is reached from one with idle threads the invariant holds. -/
theorem reachable_inv {init : State S T σ → Prop}
    (body : ∀ l f, C.asserting.Follows (sys.owner l) (.fits f) (sys.body f))
    (wake : ∀ t e s p, C.inv s → sys.wake t e s = some p →
      ∃ P : C.Assertion, P.1 s ∧ C.asserting.Follows t P p)
    (base : ∀ s, init s → C.inv s.shared ∧ (∀ l, s.pipes l = []) ∧ ∀ t, s.threads t = .ret)
    {allowed : State S T σ → Action S T E → Prop} {s : State S T σ}
    (reach : Runs.Reachable init (Runs.Moves (step sys) allowed) s) : C.inv s.shared := by
  have holds : C.asserting.Holds s := by
    refine (asserting_sound body wake).reachable ?_ ?_ reach
    · intro s initial
      obtain ⟨inv, pipes, threads⟩ := base s initial
      refine ⟨fun _ => ⟨fun _ => True, stable_const True⟩, ⟨inv, ?_, fun _ => trivial⟩, ?_⟩
      · intro l f member
        rw [pipes l] at member
        cases member
      · intro t
        rw [threads t]
        trivial
    · intro s a _
      cases a with
      | run t e => exact fun _ _ _ => trivial
      | pop l => trivial
      | wake t e => trivial
  obtain ⟨γ, inv, _⟩ := holds
  exact inv.1

end Contract

end Programs
