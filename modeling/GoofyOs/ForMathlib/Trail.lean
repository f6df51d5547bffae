import Mathlib.Data.Nat.Init
import Mathlib.Data.Option.Basic

/-!
# Repeating a partial step

A partial function is applied again and again, until it has no result.

## Main definitions

* `trail` — where some number of steps leads

## Main results

* `trail_succ'` — the first step, and then the others
* `trail_invariant` — what each step preserves
* `trail_eq_none` — steps that raise a bounded measure come to an end
-/

namespace GoofyOs

variable {α : Type*} {next : α → Option α} {a b c : α} {k : ℕ}

/-- Where `k` steps lead. -/
def trail (next : α → Option α) (a : α) : ℕ → Option α
  | 0 => some a
  | k + 1 => (trail next a k).bind next

@[simp] theorem trail_zero : trail next a 0 = some a := rfl

theorem trail_succ : trail next a (k + 1) = (trail next a k).bind next := rfl

theorem trail_succ' : trail next a (k + 1) = (next a).bind fun b => trail next b k := by
  induction k with
  | zero => exact (Option.bind_fun_some (next a)).symm
  | succ k ih =>
    rw [trail_succ, ih, Option.bind_assoc]
    rfl

theorem trail_succ_of_eq (h : next a = some b) : trail next a (k + 1) = trail next b k := by
  rw [trail_succ', h, Option.bind_some]

/-- After the end there is nothing. -/
theorem trail_eq_none_of_le {j : ℕ} (h : trail next a j = none) (hjk : j ≤ k) :
    trail next a k = none := by
  induction k, hjk using Nat.le_induction with
  | base => exact h
  | succ k _ ih => rw [trail_succ, ih, Option.bind_none]

/-- **Trail induction.** What every step preserves holds all the way. -/
theorem trail_invariant {P : α → Prop} (h : trail next a k = some b) (ha : P a)
    (hstep : ∀ b c, P b → next b = some c → P c) : P b := by
  induction k generalizing b with
  | zero =>
    obtain rfl := Option.some.inj h
    exact ha
  | succ k ih =>
    obtain ⟨c, hc, hnext⟩ := Option.bind_eq_some_iff.mp h
    exact hstep c b (ih hc) hnext

/-- Steps that raise a measure raise it by their number. -/
theorem le_of_trail {μ : α → ℕ} (h : trail next a k = some b)
    (hstep : ∀ j b c, trail next a j = some b → next b = some c → μ b < μ c) : k ≤ μ b := by
  induction k generalizing b with
  | zero => exact Nat.zero_le _
  | succ k ih =>
    obtain ⟨c, hc, hnext⟩ := Option.bind_eq_some_iff.mp h
    exact Nat.lt_of_le_of_lt (ih hc) (hstep k c b hc hnext)

/-- **The end.** Steps that raise a measure, and keep it below a bound, come to an end. -/
theorem trail_eq_none {μ : α → ℕ} {n : ℕ}
    (hstep : ∀ j b c, trail next a j = some b → next b = some c → μ b < μ c)
    (hlt : ∀ b c, next b = some c → μ c < n) : trail next a (n + 1) = none := by
  rw [Option.eq_none_iff_forall_ne_some]
  intro c h
  have hle : n + 1 ≤ μ c := le_of_trail h hstep
  obtain ⟨b, -, hnext⟩ := Option.bind_eq_some_iff.mp h
  exact absurd (hlt b c hnext) (by omega)

end GoofyOs
