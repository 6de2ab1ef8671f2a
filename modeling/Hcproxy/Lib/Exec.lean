set_option autoImplicit false

namespace Exec

variable {ε σ α β : Type}

/-- What a computation that starts in `s` ends with: `post` if it returns, `stop` if it does not
get that far. -/
def Holds (m : EStateM ε σ α) (stop : ε → σ → Prop) (post : α → σ → Prop) (s : σ) : Prop :=
  match m s with
  | .ok a t => post a t
  | .error e t => stop e t

variable {stop : ε → σ → Prop} {post : α → σ → Prop} {s : σ}

@[simp] theorem holds_pure (a : α) : Holds (pure a) stop post s ↔ post a s := Iff.rfl

@[simp] theorem holds_get {post : σ → σ → Prop} :
    Holds (EStateM.get : EStateM ε σ σ) stop post s ↔ post s s := Iff.rfl

@[simp] theorem holds_bind (m : EStateM ε σ β) (f : β → EStateM ε σ α) :
    Holds (m >>= f) stop post s ↔ Holds m stop (fun b t => Holds (f b) stop post t) s := by
  change (match (match m s with | .ok b t => f b t | .error e t => .error e t) with
    | .ok a t => post a t
    | .error e t => stop e t) ↔ (match m s with
    | .ok b t => Holds (f b) stop post t
    | .error e t => stop e t)
  cases m s <;> rfl

theorem holds_ite (c : Prop) [Decidable c] (m n : EStateM ε σ α) :
    Holds (if c then m else n) stop post s ↔
      (c → Holds m stop post s) ∧ (¬ c → Holds n stop post s) := by
  by_cases h : c <;> simp [h]

/-- The rule of consequence. -/
theorem Holds.mono {m : EStateM ε σ α} {weaker : ε → σ → Prop} {wider : α → σ → Prop}
    (holds : Holds m stop post s) (onStop : ∀ e t, stop e t → weaker e t)
    (onReturn : ∀ a t, post a t → wider a t) : Holds m weaker wider s := by
  unfold Holds at holds ⊢
  cases result : m s with
  | ok a t =>
      rw [result] at holds
      exact onReturn a t holds
  | error e t =>
      rw [result] at holds
      exact onStop e t holds

/-- Two specifications of one computation. -/
theorem Holds.and {m : EStateM ε σ α} {stop' : ε → σ → Prop} {post' : α → σ → Prop}
    (first : Holds m stop post s) (second : Holds m stop' post' s) :
    Holds m (fun e t => stop e t ∧ stop' e t) (fun a t => post a t ∧ post' a t) s := by
  unfold Holds at first second ⊢
  cases result : m s with
  | ok a t =>
      rw [result] at first second
      exact ⟨first, second⟩
  | error e t =>
      rw [result] at first second
      exact ⟨first, second⟩

/-- What a computation ends with if it returns is what it returned. -/
theorem Holds.ran {m : EStateM ε σ α} (holds : Holds m stop post s) :
    Holds m stop (fun a t => m s = .ok a t ∧ post a t) s := by
  unfold Holds at holds ⊢
  cases result : m s with
  | ok a t =>
      rw [result] at holds
      exact ⟨rfl, holds⟩
  | error e t =>
      rw [result] at holds
      exact holds

/-- What holds of a computation that is known to have returned. -/
theorem Holds.ok {m : EStateM ε σ α} {a : α} {t : σ} (holds : Holds m stop post s)
    (ran : m s = .ok a t) : post a t := by
  unfold Holds at holds
  rw [ran] at holds
  exact holds

/-- A computation that cannot stop returns. -/
theorem Holds.returns {m : EStateM ε σ α} (holds : Holds m (fun _ _ => False) post s) :
    ∃ a t, m s = .ok a t ∧ post a t := by
  unfold Holds at holds
  cases result : m s with
  | ok a t =>
      rw [result] at holds
      exact ⟨a, t, rfl, holds⟩
  | error e t =>
      rw [result] at holds
      exact holds.elim

/-- The rule for sequencing with a computation that has a specification. -/
theorem Holds.bind {m : EStateM ε σ β} {f : β → EStateM ε σ α} {mid : β → σ → Prop}
    (first : Holds m stop mid s) (second : ∀ b t, mid b t → Holds (f b) stop post t) :
    Holds (m >>= f) stop post s :=
  (holds_bind m f).mpr (first.mono (fun _ _ stopped => stopped) second)

/-- Whether a computation returns. -/
def returns (m : EStateM ε σ α) (s : σ) : Bool :=
  match m s with
  | .ok _ _ => true
  | .error _ _ => false

theorem of_returns {m : EStateM ε σ α} (returned : returns m s = true) :
    ∃ a t, m s = .ok a t := by
  unfold returns at returned
  cases result : m s with
  | ok a t => exact ⟨a, t, rfl⟩
  | error e t =>
      rw [result] at returned
      cases returned

section Relates

variable {R Q : σ → σ → Prop}

/-- However far a computation gets, the first state is related to the one it is in then. -/
def Relates (R : σ → σ → Prop) (m : EStateM ε σ α) (s : σ) : Prop :=
  Holds m (fun _ t => R s t) (fun _ t => R s t) s

theorem Relates.mono {m : EStateM ε σ α} (relates : Relates R m s)
    (sub : ∀ {s t}, R s t → Q s t) : Relates Q m s :=
  Holds.mono relates (fun _ _ => sub) fun _ _ => sub

theorem Relates.after [Trans R R R] {m : EStateM ε σ α} {t : σ} (relates : Relates R m t)
    (before : R s t) : Holds m (fun _ u => R s u) (fun _ u => R s u) t :=
  Holds.mono relates (fun _ _ => Trans.trans before) fun _ _ => Trans.trans before

/-- What follows need only be looked at where the first computation can end. -/
theorem Relates.bind_of [Trans Q Q Q] {m : EStateM ε σ β} {f : β → EStateM ε σ α}
    (sub : ∀ {s t}, R s t → Q s t) (first : Relates R m s)
    (second : ∀ b t, m s = .ok b t → R s t → Relates Q (f b) t) : Relates Q (m >>= f) s := by
  unfold Relates
  rw [holds_bind]
  unfold Relates Holds at first
  unfold Holds
  cases ran : m s with
  | ok b t =>
      rw [ran] at first
      exact (second b t ran first).after (sub first)
  | error e t =>
      rw [ran] at first
      exact sub first

theorem Relates.bind [Trans R R R] {m : EStateM ε σ β} {f : β → EStateM ε σ α}
    (first : Relates R m s) (second : ∀ b t, m s = .ok b t → R s t → Relates R (f b) t) :
    Relates R (m >>= f) s := first.bind_of id second

/-- A relation that says something about some first states only. -/
theorem Relates.of_imp {P : σ → Prop} {m : EStateM ε σ α}
    (relates : P s → Relates (fun s t => P s → R s t) m s) :
    Relates (fun s t => P s → R s t) m s := by
  by_cases given : P s
  · exact relates given
  · unfold Relates Holds
    split
    · exact fun given' => absurd given' given
    · exact fun given' => absurd given' given

end Relates

end Exec
