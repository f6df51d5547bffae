import GoofyOs.ForMathlib.Run

/-!
# Simulations between runs, and what holds all along a run

When every step of one machine is matched by a step of another one, or by a run of it, so is every
run. When a step keeps a property exactly under a condition, a run keeps it all along exactly when
every step meets the condition.
-/

namespace GoofyOs

variable {σ τ ι κ : Type*}

/-- **Simulation.** What every step of a run has a match for, the whole run has. -/
theorem Run.simulate {step : σ → ι → Option σ} {step' : τ → ι → Option τ} {ok : σ → ι → Prop}
    {R : σ → τ → Prop} {s t : σ} {x : τ} {cs : List ι} (hr : Run step ok s cs t)
    (hstep : ∀ s x c s', R s x → ok s c → step s c = some s' →
      ∃ x', step' x c = some x' ∧ R s' x')
    (hx : R s x) : ∃ y, Run step' (fun _ _ => True) x cs y ∧ R t y := by
  induction hr generalizing x with
  | nil => exact ⟨x, .nil x, hx⟩
  | cons hok hc _ ih =>
    obtain ⟨x', hx', hR⟩ := hstep _ _ _ _ hx hok hc
    obtain ⟨y, hrun, hy⟩ := ih hR
    exact ⟨y, .cons trivial hx' hrun, hy⟩

/-- **Simulation by runs.** A step may be matched by several steps, or by none. -/
theorem Run.simulate_runs {step : σ → ι → Option σ} {step' : τ → κ → Option τ}
    {ok : σ → ι → Prop} {ok' : τ → κ → Prop} {R : σ → τ → Prop} {s t : σ} {x : τ} {cs : List ι}
    (hr : Run step ok s cs t)
    (hstep : ∀ s x c s', R s x → ok s c → step s c = some s' →
      ∃ ds x', Run step' ok' x ds x' ∧ R s' x')
    (hx : R s x) : ∃ ds y, Run step' ok' x ds y ∧ R t y := by
  induction hr generalizing x with
  | nil => exact ⟨[], x, .nil x, hx⟩
  | cons hok hc _ ih =>
    obtain ⟨ds, x', hrun, hR⟩ := hstep _ _ _ _ hx hok hc
    obtain ⟨ds', y, hrun', hy⟩ := ih hR
    exact ⟨ds ++ ds', y, hrun.append hrun', hy⟩

/-- **All along a run.** If a step from a state with the property leads to one with it exactly under
a condition, then the states of a run all have it exactly if every step meets the condition. -/
theorem Run.always_iff {step : σ → ι → Option σ} {ok Q : σ → ι → Prop} {P : σ → Prop} {s t : σ}
    {cs : List ι} (hr : Run step ok s cs t) (hs : P s)
    (hstep : ∀ s c s', P s → ok s c → step s c = some s' → (P s' ↔ Q s c)) :
    (∀ ds u, ds <+: cs → Run step ok s ds u → P u) ↔
      Run step (fun s c => ok s c ∧ Q s c) s cs t := by
  induction hr with
  | nil s =>
    refine ⟨fun _ => .nil s, fun _ ds u hpre hrun => ?_⟩
    obtain rfl := List.prefix_nil.mp hpre
    cases hrun
    exact hs
  | @cons s s' t c cs hok hc hrun ih =>
    constructor
    · intro h
      have hs' : P s' := h [c] s' (List.prefix_append [c] cs) (.cons hok hc (.nil s'))
      refine .cons ⟨hok, (hstep _ _ _ hs hok hc).mp hs'⟩ hc ((ih hs').mp fun ds u hpre hds => ?_)
      exact h (c :: ds) u (List.cons_prefix_cons.mpr ⟨rfl, hpre⟩) (.cons hok hc hds)
    · rintro (_ | ⟨⟨-, hq⟩, hc', hrest⟩)
      obtain rfl := Option.some.inj (hc.symm.trans hc')
      have hs' := (hstep _ _ _ hs hok hc).mpr hq
      intro ds u hpre hds
      cases hds with
      | nil => exact hs
      | @cons _ s'' _ d ds hokd hcd hds =>
        obtain ⟨heq, hpre'⟩ := List.cons_prefix_cons.mp hpre
        subst heq
        obtain rfl := Option.some.inj (hc.symm.trans hcd)
        exact (ih hs').mpr hrest ds u hpre' hds

end GoofyOs
