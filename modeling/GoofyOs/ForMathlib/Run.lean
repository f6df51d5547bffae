import Mathlib.Logic.Basic

/-!
# Runs of a deterministic machine

A machine executes commands one at a time; a command may fail to return. `Run step ok s cs t` says
that the commands `cs` take `s` to `t`, and that `ok` held of every command in the state it was
issued in. What one step preserves, a run preserves.
-/

namespace GoofyOs

variable {σ ι : Type*}

/-- The commands `cs` lead from the first state to the second, each issued where `ok` allows it. -/
inductive Run (step : σ → ι → Option σ) (ok : σ → ι → Prop) : σ → List ι → σ → Prop
  | nil (s : σ) : Run step ok s [] s
  | cons {s s' t : σ} {c : ι} {cs : List ι} (hok : ok s c) (hstep : step s c = some s')
      (hrun : Run step ok s' cs t) : Run step ok s (c :: cs) t

namespace Run

variable {step : σ → ι → Option σ} {ok ok' : σ → ι → Prop} {s t u : σ} {c : ι} {cs ds : List ι}

/-- **Run induction.** What every allowed step preserves holds at the end of a run. -/
theorem invariant {P : σ → Prop} (hr : Run step ok s cs t)
    (hstep : ∀ s c s', P s → ok s c → step s c = some s' → P s') (hs : P s) : P t := by
  induction hr with
  | nil => exact hs
  | cons hok hc _ ih => exact ih (hstep _ _ _ hs hok hc)

theorem mono (hr : Run step ok s cs t) (h : ∀ s c, ok s c → ok' s c) : Run step ok' s cs t := by
  induction hr with
  | nil => exact .nil _
  | cons hok hc _ ih => exact .cons (h _ _ hok) hc ih

theorem append (hr : Run step ok s cs t) (ht : Run step ok t ds u) :
    Run step ok s (cs ++ ds) u := by
  induction hr with
  | nil => exact ht
  | cons hok hc _ ih => exact .cons hok hc (ih ht)

theorem append_iff :
    Run step ok s (cs ++ ds) u ↔ ∃ t, Run step ok s cs t ∧ Run step ok t ds u := by
  constructor
  · intro hr
    induction cs generalizing s with
    | nil => exact ⟨s, .nil s, hr⟩
    | cons c cs ih =>
      obtain _ | ⟨hok, hc, hr⟩ := hr
      obtain ⟨t, hcs, hds⟩ := ih hr
      exact ⟨t, .cons hok hc hcs, hds⟩
  · rintro ⟨t, hcs, hds⟩
    exact hcs.append hds

theorem cons_iff :
    Run step ok s (c :: cs) t ↔ ok s c ∧ ∃ s', step s c = some s' ∧ Run step ok s' cs t := by
  constructor
  · rintro (_ | ⟨hok, hc, hr⟩)
    exact ⟨hok, _, hc, hr⟩
  · rintro ⟨hok, s', hc, hr⟩
    exact .cons hok hc hr

/-- Executing the commands, refusing those that are not allowed. -/
def check (step : σ → ι → Option σ) (ok : σ → ι → Prop) [∀ s c, Decidable (ok s c)] :
    σ → List ι → Option σ
  | s, [] => some s
  | s, c :: cs => if ok s c then (step s c).bind fun s' => check step ok s' cs else none

theorem of_check [∀ s c, Decidable (ok s c)] (h : check step ok s cs = some t) :
    Run step ok s cs t := by
  induction cs generalizing s with
  | nil =>
    obtain rfl := Option.some.inj h
    exact .nil _
  | cons c cs ih =>
    rw [check] at h
    split at h
    · next hok =>
      obtain ⟨s', hc, hrest⟩ := Option.bind_eq_some_iff.mp h
      exact .cons hok hc (ih hrest)
    · simp at h

end Run

end GoofyOs
