import Mathlib.Logic.Basic

/-!
# Stateful code with error codes

A function of a kernel reads and writes a state, returns a value or an error code, or does neither:
it follows a null pointer, or waits for a lock that nobody will release. Such a function is a
`Proc`. The state after an error is the one the function left behind.

## Main definitions

* `Proc` — the monad
* `Proc.throw`, `Proc.attempt` — returning an error code, and looking at what was returned
* `Proc.deref`, `Proc.read`, `Proc.modify` — following a pointer, reading and writing the state

## Main results

* `Proc.bind_ok`, `Proc.bind_error`, `Proc.bind_none` — running a sequence, one step at a time
* `Proc.bind_bind` — sequences associate
* `Proc.ErrorFree.bind` — a sequence of code that returns no error code returns none
-/

namespace GoofyOs

/-- Code over the states `σ` that returns an `α` or an error code in `ε`. The outcome `none` is a
fault. -/
def Proc (σ ε α : Type) : Type := σ → Option (Except ε α × σ)

namespace Proc

variable {σ ε α β : Type}

instance : Monad (Proc σ ε) where
  pure a := fun s => some (.ok a, s)
  bind m f := fun s =>
    match m s with
    | none => none
    | some (.error e, s) => some (.error e, s)
    | some (.ok a, s) => f a s

/-- Returning an error code. -/
def throw (e : ε) : Proc σ ε α := fun s => some (.error e, s)

/-- Following a pointer. A null pointer faults. -/
def deref (p : Option α) : Proc σ ε α := fun s => p.map fun a => (.ok a, s)

/-- Reading the state. -/
def read : Proc σ ε σ := fun s => some (.ok s, s)

/-- Writing the state. -/
def modify (f : σ → σ) : Proc σ ε Unit := fun s => some (.ok (), f s)

/-- Running code and looking at what it returned. -/
def attempt (m : Proc σ ε α) : Proc σ ε (Except ε α) := fun s => (m s).map fun r => (.ok r.1, r.2)

variable {m : Proc σ ε α} {f : α → Proc σ ε β} {s s' : σ} {a : α} {e : ε}

@[simp] theorem pure_apply (a : α) (s : σ) : (pure a : Proc σ ε α) s = some (.ok a, s) := rfl

@[simp] theorem throw_apply (e : ε) (s : σ) : (throw e : Proc σ ε α) s = some (.error e, s) := rfl

@[simp] theorem read_apply (s : σ) : (read : Proc σ ε σ) s = some (.ok s, s) := rfl

@[simp] theorem modify_apply (f : σ → σ) (s : σ) :
    (modify f : Proc σ ε Unit) s = some (.ok (), f s) := rfl

@[simp] theorem deref_some (a : α) (s : σ) : (deref (some a) : Proc σ ε α) s = some (.ok a, s) :=
  rfl

theorem attempt_of_eq {r : Except ε α} (h : m s = some (r, s')) :
    attempt m s = some (.ok r, s') := by
  rw [attempt, h]
  rfl

/-- A step that returns is followed by the rest. -/
theorem bind_ok (h : m s = some (.ok a, s')) : (m >>= f) s = f a s' := by
  show (match m s with
    | none => none
    | some (.error e, s) => some (.error e, s)
    | some (.ok a, s) => f a s) = f a s'
  rw [h]

/-- A step that returns an error code ends the sequence. -/
theorem bind_error (h : m s = some (.error e, s')) : (m >>= f) s = some (.error e, s') := by
  show (match m s with
    | none => none
    | some (.error e, s) => some (.error e, s)
    | some (.ok a, s) => f a s) = some (.error e, s')
  rw [h]

/-- A step that faults ends the sequence. -/
theorem bind_none (h : m s = none) : (m >>= f) s = none := by
  show (match m s with
    | none => none
    | some (.error e, s) => some (.error e, s)
    | some (.ok a, s) => f a s) = none
  rw [h]

theorem deref_some_bind (a : α) (f : α → Proc σ ε β) : (deref (some a) >>= f) = f a :=
  funext fun s => bind_ok (deref_some a s)

theorem bind_congr_apply {m' : Proc σ ε α} (h : m s = m' s') : (m >>= f) s = (m' >>= f) s' := by
  show (match m s with
    | none => none
    | some (.error e, s) => some (.error e, s)
    | some (.ok a, s) => f a s) = (m' >>= f) s'
  rw [h]
  rfl

theorem bind_pure_unit (m : Proc σ ε Unit) : (m >>= fun _ => pure ()) = m := by
  funext s
  rcases hm : m s with - | ⟨e | u, s₁⟩
  · rw [bind_none hm]
  · rw [bind_error hm]
  · rw [bind_ok hm]
    rfl

/-- Looking at what was returned, and returning an error code if it is one. -/
theorem attempt_bind (m : Proc σ ε α) (f : α → Proc σ ε β) :
    (attempt m >>= fun r => match r with
      | .error e => throw e
      | .ok a => f a) = m >>= f := by
  funext s
  rcases hm : m s with - | ⟨e | a, s₁⟩
  · rw [bind_none hm, bind_none (by rw [attempt, hm]; rfl)]
  · rw [bind_error hm, bind_ok (attempt_of_eq hm)]
    rfl
  · rw [bind_ok hm, bind_ok (attempt_of_eq hm)]

theorem bind_bind {γ : Type} (m : Proc σ ε α) (f : α → Proc σ ε β) (g : β → Proc σ ε γ) :
    (m >>= f) >>= g = m >>= fun a => f a >>= g := by
  funext s
  rcases hm : m s with - | ⟨e | a, s₁⟩
  · rw [bind_none (bind_none hm), bind_none hm]
  · rw [bind_error (bind_error hm), bind_error hm]
  · rw [bind_ok hm]
    rcases hf : f a s₁ with - | ⟨e | b, s₂⟩
    · rw [bind_none ((bind_ok hm).trans hf), bind_none hf]
    · rw [bind_error ((bind_ok hm).trans hf), bind_error hf]
    · rw [bind_ok ((bind_ok hm).trans hf), bind_ok hf]

/-! ### Code without error codes -/

/-- Code that returns no error code. It may fault. -/
def ErrorFree (m : Proc σ ε α) : Prop := ∀ s e s', m s ≠ some (.error e, s')

theorem ErrorFree.bind (hm : m.ErrorFree) (hf : ∀ a, (f a).ErrorFree) : (m >>= f).ErrorFree := by
  intro s e s'
  rcases hrun : m s with - | ⟨e₁ | a, s₁⟩
  · rw [bind_none hrun]
    exact nofun
  · exact absurd hrun (hm s e₁ s₁)
  · rw [bind_ok hrun]
    exact hf a s₁ e s'

theorem errorFree_pure (a : α) : (pure a : Proc σ ε α).ErrorFree := by
  intro s e s' h
  simp at h

theorem errorFree_deref (p : Option α) : (deref p : Proc σ ε α).ErrorFree := by
  intro s e s' h
  cases p with
  | none => exact Option.some_ne_none _ h.symm
  | some a => simp at h

theorem errorFree_read : (read : Proc σ ε σ).ErrorFree := by
  intro s e s' h
  simp at h

theorem errorFree_modify (g : σ → σ) : (modify g : Proc σ ε Unit).ErrorFree := by
  intro s e s' h
  simp at h

theorem ErrorFree.ite {c : Prop} [Decidable c] {m' : Proc σ ε α} (hm : m.ErrorFree)
    (hm' : m'.ErrorFree) : (if c then m else m').ErrorFree := by
  split
  · exact hm
  · exact hm'

end Proc

end GoofyOs
