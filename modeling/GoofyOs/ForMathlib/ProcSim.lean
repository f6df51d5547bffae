import GoofyOs.ForMathlib.Proc

/-!
# Simulations between stateful code

`Simulates R Q m m'` says that whenever `m` returns, `m'` returns too from every state that `R`
relates, in a related state, and with a value that `Q` relates or the same error code. Nothing is said
about runs of `m` that fault, so `m'` may do more than `m`.

## Main definitions

* `Proc.Agree` — two results with related values, or the same error code
* `Proc.Simulates` — the simulation

## Main results

* `Proc.Simulates.bind` — simulations compose along a sequence
* `Proc.Simulates.attempt` — and through looking at what was returned
-/

namespace GoofyOs

namespace Proc

variable {σ τ ε α β γ δ : Type}

/-- Related values, or the same error code. -/
inductive Agree (Q : α → β → Prop) : Except ε α → Except ε β → Prop
  | ok {a : α} {b : β} (h : Q a b) : Agree Q (.ok a) (.ok b)
  | error (e : ε) : Agree Q (.error e) (.error e)

/-- From related states, `m'` returns what `m` returns. -/
def Simulates (R : σ → τ → Prop) (Q : α → β → Prop) (m : Proc σ ε α) (m' : Proc τ ε β) : Prop :=
  ∀ s t r s', R s t → m s = some (r, s') →
    ∃ r' t', m' t = some (r', t') ∧ R s' t' ∧ Agree Q r r'

theorem Agree.eq {r r' : Except ε α} (h : Agree Eq r r') : r = r' := by
  cases h with
  | ok h => rw [h]
  | error e => rfl

theorem eq_of_pure {a b : α} {s s' : σ}
    (h : (pure a : Proc σ ε α) s = some (.ok b, s')) : a = b ∧ s = s' := by
  obtain ⟨h, hs⟩ := Prod.mk.inj (Option.some.inj h)
  exact ⟨Except.ok.inj h, hs⟩

theorem attempt_eq_some {m : Proc σ ε α} {r : Except ε (Except ε α)} {s s' : σ}
    (h : attempt m s = some (r, s')) : ∃ r', r = .ok r' ∧ m s = some (r', s') := by
  obtain ⟨⟨r', s₁⟩, hm, hr⟩ := Option.map_eq_some_iff.mp h
  obtain ⟨rfl, rfl⟩ := Prod.mk.inj hr
  exact ⟨r', rfl, hm⟩

/-- What a sequence returns was returned by its first step, as an error code, or by the rest. -/
theorem bind_eq_some {m : Proc σ ε α} {f : α → Proc σ ε β} {s s' : σ} {r : Except ε β}
    (h : (m >>= f) s = some (r, s')) :
    (∃ e, m s = some (.error e, s') ∧ r = .error e) ∨
      ∃ a s₁, m s = some (.ok a, s₁) ∧ f a s₁ = some (r, s') := by
  cases hm : m s with
  | none =>
    rw [bind_none hm] at h
    simp at h
  | some p =>
    obtain ⟨e | a, s₁⟩ := p
    · rw [bind_error hm] at h
      obtain ⟨rfl, rfl⟩ := Prod.mk.inj (Option.some.inj h)
      exact Or.inl ⟨e, rfl, rfl⟩
    · rw [bind_ok hm] at h
      exact Or.inr ⟨a, s₁, rfl, h⟩

namespace Simulates

variable {R : σ → τ → Prop} {Q : α → β → Prop} {Q' : γ → δ → Prop} {m : Proc σ ε α}
  {m' : Proc τ ε β} {f : α → Proc σ ε γ} {f' : β → Proc τ ε δ}

theorem pure {a : α} {b : β} (h : Q a b) : Simulates R Q (pure a : Proc σ ε α) (pure b) := by
  intro s t r s' hR heq
  obtain ⟨rfl, rfl⟩ := Prod.mk.inj (Option.some.inj heq)
  exact ⟨_, t, rfl, hR, .ok h⟩

theorem throw (e : ε) : Simulates R Q (throw e : Proc σ ε α) (throw e) := by
  intro s t r s' hR heq
  obtain ⟨rfl, rfl⟩ := Prod.mk.inj (Option.some.inj heq)
  exact ⟨_, t, rfl, hR, .error e⟩

theorem deref (p : Option α) : Simulates R Eq (deref p : Proc σ ε α) (deref p) := by
  intro s t r s' hR heq
  obtain ⟨a, rfl, hr⟩ := Option.map_eq_some_iff.mp heq
  obtain ⟨rfl, rfl⟩ := Prod.mk.inj hr
  exact ⟨_, t, rfl, hR, .ok rfl⟩

theorem read : Simulates R R (read : Proc σ ε σ) read := by
  intro s t r s' hR heq
  obtain ⟨rfl, rfl⟩ := Prod.mk.inj (Option.some.inj heq)
  exact ⟨_, t, rfl, hR, .ok hR⟩

theorem modify {g : σ → σ} {g' : τ → τ} (h : ∀ s t, R s t → R (g s) (g' t)) :
    Simulates R (fun _ _ => True) (modify g : Proc σ ε Unit) (modify g') := by
  intro s t r s' hR heq
  obtain ⟨rfl, rfl⟩ := Prod.mk.inj (Option.some.inj heq)
  exact ⟨_, g' t, rfl, h s t hR, .ok trivial⟩

/-- **Sequences.** The rest has to simulate from every pair of values that may be returned. -/
theorem bind (hm : Simulates R Q m m') (hf : ∀ a b, Q a b → Simulates R Q' (f a) (f' b)) :
    Simulates R Q' (m >>= f) (m' >>= f') := by
  intro s t r s' hR heq
  rcases bind_eq_some heq with ⟨e, hm₁, rfl⟩ | ⟨a, s₁, hm₁, hf₁⟩
  · obtain ⟨r', t', ht, hR', hr⟩ := hm _ _ _ _ hR hm₁
    cases hr
    exact ⟨_, t', bind_error ht, hR', .error e⟩
  · obtain ⟨r', t₁, ht, hR₁, hr⟩ := hm _ _ _ _ hR hm₁
    cases hr with
    | ok hab =>
      obtain ⟨r', t', ht', hR', hr⟩ := hf a _ hab _ _ _ _ hR₁ hf₁
      exact ⟨r', t', (bind_ok ht).trans ht', hR', hr⟩

/-- A sequence whose first steps return the same value. -/
theorem bind_eq {m' : Proc τ ε α} {f' : α → Proc τ ε δ} (hm : Simulates R Eq m m')
    (hf : ∀ a, Simulates R Q' (f a) (f' a)) : Simulates R Q' (m >>= f) (m' >>= f') :=
  hm.bind fun a _ hab => hab ▸ hf a

/-- Two branches on the same condition. -/
theorem ite {c c' : Prop} [Decidable c] [Decidable c'] {m₁ m₂ : Proc σ ε α} {m₁' m₂' : Proc τ ε β}
    (h : c ↔ c') (hpos : c → Simulates R Q m₁ m₁') (hneg : ¬ c → Simulates R Q m₂ m₂') :
    Simulates R Q (if c then m₁ else m₂) (if c' then m₁' else m₂') := by
  by_cases hc : c
  · rw [if_pos hc, if_pos (h.mp hc)]
    exact hpos hc
  · rw [if_neg hc, if_neg (h.not.mp hc)]
    exact hneg hc

/-- **Looking at what was returned.** -/
theorem attempt (hm : Simulates R Q m m') : Simulates R (Agree Q) (attempt m) (attempt m') := by
  intro s t r s' hR heq
  obtain ⟨r₁, rfl, hm₁⟩ := attempt_eq_some heq
  obtain ⟨r', t', ht, hR', hr⟩ := hm _ _ _ _ hR hm₁
  exact ⟨_, t', attempt_of_eq ht, hR', .ok hr⟩

theorem mono {Q₁ : α → β → Prop} (hm : Simulates R Q m m') (h : ∀ a b, Q a b → Q₁ a b) :
    Simulates R Q₁ m m' := by
  intro s t r s' hR heq
  obtain ⟨r', t', ht, hR', hr⟩ := hm _ _ _ _ hR heq
  refine ⟨r', t', ht, hR', ?_⟩
  cases hr with
  | ok hab => exact .ok (h _ _ hab)
  | error e => exact .error e

end Simulates

end Proc

end GoofyOs
