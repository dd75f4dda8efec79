/-!
# Outcomes of computations that may fail

Readers of tokens and steps of a compilation are sequences of smaller steps, each of which
may fail. A sequence succeeds exactly if all of its steps do, each from the state that the
one before it leaves; the lemmas here take a success apart in that way, and put it together
again.
-/

namespace PizzaLang

/-! ### With a state -/

namespace Stateful

variable {ε σ α β : Type} {x : EStateM ε σ α} {f : α → EStateM ε σ β} {s s' t : σ} {a : α} {b : β}

theorem bind_of_ok (h : x s = .ok a t) : (x >>= f) s = f a t := by
  change EStateM.bind x f s = f a t
  rw [EStateM.bind, h]

theorem bind_of_error {e : ε} (h : x s = .error e t) : (x >>= f) s = .error e t := by
  change EStateM.bind x f s = .error e t
  rw [EStateM.bind, h]

/-- **A sequence succeeds** if its first step does, and then the others. -/
theorem bind_eq_ok_iff : (x >>= f) s = .ok b s' ↔ ∃ a t, x s = .ok a t ∧ f a t = .ok b s' := by
  cases h : x s with
  | ok a t =>
    rw [bind_of_ok h]
    constructor
    · exact fun hf => ⟨a, t, rfl, hf⟩
    · rintro ⟨a', t', heq, hf⟩
      obtain ⟨rfl, rfl⟩ := EStateM.Result.ok.inj heq
      exact hf
  | error e t =>
    rw [bind_of_error h]
    simp

/-- **A sequence fails** if its first step does, or succeeds and one of the others fails. -/
theorem bind_eq_error_iff {e : ε} : (x >>= f) s = .error e s' ↔
    x s = .error e s' ∨ ∃ a t, x s = .ok a t ∧ f a t = .error e s' := by
  cases h : x s with
  | ok a t =>
    rw [bind_of_ok h]
    constructor
    · exact fun hf => Or.inr ⟨a, t, rfl, hf⟩
    · rintro (heq | ⟨a', t', heq, hf⟩)
      · cases heq
      · obtain ⟨rfl, rfl⟩ := EStateM.Result.ok.inj heq
        exact hf
  | error e' t =>
    rw [bind_of_error h]
    simp

/-- What comes after a step matters only where the step succeeds. -/
theorem bind_congr_right {g : α → EStateM ε σ β} (h : ∀ a t, x s = .ok a t → f a t = g a t) :
    (x >>= f) s = (x >>= g) s := by
  cases hx : x s with
  | ok a t =>
    rw [bind_of_ok hx, bind_of_ok hx]
    exact h a t hx
  | error e t => rw [bind_of_error hx, bind_of_error hx]

theorem bind_congr_left {y : EStateM ε σ α} (h : x s = y s) : (x >>= f) s = (y >>= f) s := by
  cases hy : y s with
  | ok a t => rw [bind_of_ok hy, bind_of_ok (h.trans hy)]
  | error e t => rw [bind_of_error hy, bind_of_error (h.trans hy)]

theorem pure_eq_ok_iff {a' : α} : (pure a : EStateM ε σ α) s = .ok a' s' ↔ a = a' ∧ s = s' := by
  change EStateM.Result.ok a s = .ok a' s' ↔ _
  simp

theorem throw_ne_ok {e : ε} : (throw e : EStateM ε σ α) s ≠ .ok a s' := by
  change EStateM.Result.error e s ≠ .ok a s'
  simp

theorem pure_ne_error {e : ε} : (pure a : EStateM ε σ α) s ≠ .error e s' := by
  change EStateM.Result.ok a s ≠ .error e s'
  simp

theorem throw_eq_error_iff {e e' : ε} :
    (throw e : EStateM ε σ α) s = .error e' s' ↔ e = e' ∧ s = s' := by
  change EStateM.Result.error e s = .error e' s' ↔ _
  simp

/-- **A fold that fails does so at one of its items**, all earlier ones having succeeded. -/
theorem exists_of_foldlM_eq_error {step : β → α → EStateM ε σ β} {as : List α} {e : ε}
    (h : as.foldlM step b s = .error e s') : ∃ before a after b' t, as = before ++ a :: after ∧
      before.foldlM step b s = .ok b' t ∧ step b' a t = .error e s' := by
  induction as generalizing b s with
  | nil => exact absurd h pure_ne_error
  | cons a as ih =>
    rw [List.foldlM_cons] at h
    rcases bind_eq_error_iff.mp h with h | ⟨b₁, t₁, hstep, h⟩
    · exact ⟨[], a, as, b, s, rfl, rfl, h⟩
    · obtain ⟨before, a', after, b', t, rfl, hbefore, ha'⟩ := ih h
      refine ⟨a :: before, a', after, b', t, rfl, ?_, ha'⟩
      rw [List.foldlM_cons, bind_of_ok hstep]
      exact hbefore

/-- Is the outcome a success that passes a test? -/
def yields (outcome : EStateM.Result ε σ α) (test : α → σ → Bool) : Bool :=
  match outcome with
  | .ok a s => test a s
  | .error _ _ => false

theorem exists_of_yields {outcome : EStateM.Result ε σ α} {test : α → σ → Bool}
    (h : yields outcome test = true) : ∃ a s, outcome = .ok a s ∧ test a s = true := by
  cases outcome with
  | ok a s => exact ⟨a, s, rfl, h⟩
  | error e s => cases h

/-- Is the outcome a failure with an error that passes a test? -/
def fails (outcome : EStateM.Result ε σ α) (test : ε → Bool) : Bool :=
  match outcome with
  | .ok _ _ => false
  | .error e _ => test e

theorem exists_of_fails {outcome : EStateM.Result ε σ α} {test : ε → Bool}
    (h : fails outcome test = true) : ∃ e s, outcome = .error e s ∧ test e = true := by
  cases outcome with
  | ok a s => cases h
  | error e s => exact ⟨e, s, rfl, h⟩

end Stateful

/-! ### Without a state -/

namespace Fallible

variable {ε ε' α β : Type} {x : Except ε α} {f : α → Except ε β} {a : α} {b : β}

theorem bind_eq_ok_iff : (x >>= f) = .ok b ↔ ∃ a, x = .ok a ∧ f a = .ok b := by
  cases x with
  | ok a => simp [bind, Except.bind]
  | error e => simp [bind, Except.bind]

theorem bind_eq_error_iff {e : ε} :
    (x >>= f) = .error e ↔ x = .error e ∨ ∃ a, x = .ok a ∧ f a = .error e := by
  cases x with
  | ok a => simp [bind, Except.bind]
  | error e => simp [bind, Except.bind]

theorem pure_eq_ok_iff {a' : α} : (pure a : Except ε α) = .ok a' ↔ a = a' := by
  simp [pure, Except.pure]

theorem pure_ne_error {e : ε} : (pure a : Except ε α) ≠ .error e := by
  simp [pure, Except.pure]

theorem mapError_eq_ok_iff {g : ε → ε'} : x.mapError g = .ok a ↔ x = .ok a := by
  cases x with
  | ok b =>
    change (.ok b : Except ε' α) = .ok a ↔ _
    simp
  | error e =>
    change (.error (g e) : Except ε' α) = .ok a ↔ _
    simp

theorem mapError_eq_error_iff {g : ε → ε'} {e' : ε'} :
    x.mapError g = .error e' ↔ ∃ e, x = .error e ∧ g e = e' := by
  cases x with
  | ok b =>
    change (.ok b : Except ε' α) = .error e' ↔ _
    simp
  | error e =>
    change (.error (g e) : Except ε' α) = .error e' ↔ _
    simp

/-- **A fold that fails does so at one item.** -/
theorem exists_of_foldlM_eq_error {γ : Type} {step : β → γ → Except ε β} {cs : List γ} {b : β}
    {e : ε} (h : cs.foldlM step b = .error e) : ∃ c ∈ cs, ∃ b', step b' c = .error e := by
  induction cs generalizing b with
  | nil => exact absurd h pure_ne_error
  | cons c cs ih =>
    rw [List.foldlM_cons] at h
    rcases bind_eq_error_iff.mp h with h | ⟨b', -, h⟩
    · exact ⟨c, List.mem_cons_self, b, h⟩
    · obtain ⟨d, hd, hstep⟩ := ih h
      exact ⟨d, List.mem_cons_of_mem _ hd, hstep⟩

theorem exists_of_any {test : α → Bool} (h : x.toOption.any test = true) :
    ∃ a, x = .ok a ∧ test a = true := by
  cases x with
  | ok a => exact ⟨a, rfl, h⟩
  | error e => cases h

/-- **What each step of a fold keeps, the whole fold keeps.** -/
theorem foldlM_invariant {γ : Type} {step : β → γ → Except ε β} {P : β → Prop}
    (hstep : ∀ b c b', P b → step b c = .ok b' → P b') {cs : List γ} {b b' : β} (hb : P b)
    (h : cs.foldlM step b = .ok b') : P b' := by
  induction cs generalizing b with
  | nil =>
    obtain rfl : b = b' := by simpa [pure, Except.pure] using h
    exact hb
  | cons c cs ih =>
    rw [List.foldlM_cons] at h
    obtain ⟨d, hd, h⟩ := bind_eq_ok_iff.mp h
    exact ih (hstep b c d hb hd) h

/-- A fold succeeds alike with a step that succeeds on its items wherever the first one does. -/
theorem foldlM_mono {γ : Type} {step step' : β → γ → Except ε β} {cs : List γ}
    (hstep : ∀ c ∈ cs, ∀ b b', step b c = .ok b' → step' b c = .ok b') {b b' : β}
    (h : cs.foldlM step b = .ok b') : cs.foldlM step' b = .ok b' := by
  induction cs generalizing b with
  | nil => exact h
  | cons c cs ih =>
    rw [List.forall_mem_cons] at hstep
    rw [List.foldlM_cons] at h ⊢
    obtain ⟨d, hd, h⟩ := bind_eq_ok_iff.mp h
    exact bind_eq_ok_iff.mpr ⟨d, hstep.1 b d hd, ih hstep.2 h⟩

end Fallible

end PizzaLang
