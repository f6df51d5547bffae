import GoofyOs.ForMathlib.RunSim

/-!
# An object behind a lock

Operations on a state are code that takes several steps, and a lock lets one of them run at a time.
Between the steps anything else may happen. What the operations return, and what they leave, is what
they return and leave when they are run one after the other.

## Main definitions

* `Code`, `Code.eval` — code in atomic steps, and running it to its end
* `LockedObject`, `LockedObject.step` — the state, and the operation that holds the lock
* `Replays` — a sequential history

## Main results

* `LockedObject.replays` — the operations that are done are a sequential history, and the one that
  is running is ahead of it
-/

namespace GoofyOs

/-- Code over the states `σ` that returns a `ρ`. A step reads the state and changes it; if there is no
state after it, it never ends. -/
inductive Code (σ ρ : Type*)
  | ret (r : ρ)
  | step (next : σ → Option σ) (rest : σ → Code σ ρ)

namespace Code

variable {σ ρ : Type*}

/-- Running code to its end, with nothing in between. -/
def eval : Code σ ρ → σ → Option (ρ × σ)
  | ret r, m => some (r, m)
  | step next rest, m => (next m).bind fun m' => (rest m).eval m'

/-- A function in one step. -/
def atomic (f : σ → Option (ρ × σ)) (default : ρ) : Code σ ρ :=
  step (fun m => (f m).map Prod.snd) fun m => ret (((f m).map Prod.fst).getD default)

theorem eval_atomic (f : σ → Option (ρ × σ)) (r : ρ) (m : σ) : (atomic f r).eval m = f m := by
  rw [atomic, eval]
  cases hf : f m with
  | none => rfl
  | some p => rfl

end Code

section Replays

variable {κ Op σ ρ : Type*}

/-- A sequential history: the operations in the order in which they are run, who called them and
what they returned. Each is run in a state, and after a history, that `ok` allows. -/
inductive Replays (spec : Op → σ → Option (ρ × σ)) (ok : List (κ × Op × ρ) → σ → Op → Prop) (m : σ) :
    List (κ × Op × ρ) → σ → Prop
  | nil : Replays spec ok m [] m
  | concat {log : List (κ × Op × ρ)} {m' m'' : σ} {i : κ} {op : Op} {r : ρ}
      (hlog : Replays spec ok m log m') (hok : ok log m' op) (hspec : spec op m' = some (r, m'')) :
      Replays spec ok m (log ++ [(i, op, r)]) m''

/-- **Induction on a history.** What every operation keeps holds at its end. -/
theorem Replays.invariant {spec : Op → σ → Option (ρ × σ)} {ok : List (κ × Op × ρ) → σ → Op → Prop}
    {m m' : σ} {log : List (κ × Op × ρ)} {P : List (κ × Op × ρ) → σ → Prop}
    (h : Replays spec ok m log m') (h0 : P [] m)
    (hstep : ∀ log m i op r m', P log m → ok log m op → spec op m = some (r, m') →
      P (log ++ [(i, op, r)]) m') : P log m' := by
  induction h with
  | nil => exact h0
  | concat _ hok hspec ih => exact hstep _ _ _ _ _ _ ih hok hspec

end Replays

/-- The state, the operation that holds the lock with the rest of its code, and those that are done. -/
structure LockedObject (κ Op σ ρ : Type*) where
  mem : σ
  current : Option (κ × Op × Code σ ρ)
  log : List (κ × Op × ρ)

/-- What may happen to it. -/
inductive LockedEvent (κ Op : Type*)
  | enter (i : κ) (op : Op)
  | work
  | exit

namespace LockedObject

variable {κ Op σ ρ : Type*}

def init (m : σ) : LockedObject κ Op σ ρ := ⟨m, none, []⟩

/-- One step: taking the lock, one step of the code, or giving the lock back. -/
def step (body : Op → Code σ ρ) (s : LockedObject κ Op σ ρ) :
    LockedEvent κ Op → Option (LockedObject κ Op σ ρ)
  | .enter i op =>
    match s.current with
    | none => some { s with current := some (i, op, body op) }
    | some _ => none
  | .work =>
    match s.current with
    | some (i, op, .step next rest) =>
      (next s.mem).map fun m => { s with mem := m, current := some (i, op, rest s.mem) }
    | _ => none
  | .exit =>
    match s.current with
    | some (i, op, .ret r) => some { s with current := none, log := s.log ++ [(i, op, r)] }
    | _ => none

/-- An operation takes the lock only where `ok` allows it. -/
def Enters (ok : List (κ × Op × ρ) → σ → Op → Prop) (s : LockedObject κ Op σ ρ) :
    LockedEvent κ Op → Prop
  | .enter _ op => ok s.log s.mem op
  | _ => True

/-- The history ends at `m`. The code that runs has the result that it would have from there. -/
def Ahead (spec : Op → σ → Option (ρ × σ)) (ok : List (κ × Op × ρ) → σ → Op → Prop)
    (s : LockedObject κ Op σ ρ) (m : σ) : Prop :=
  match s.current with
  | none => s.mem = m
  | some (_, op, code) => ok s.log m op ∧ code.eval s.mem = spec op m

variable {body : Op → Code σ ρ} {spec : Op → σ → Option (ρ × σ)}
  {ok : List (κ × Op × ρ) → σ → Op → Prop} {s s' : LockedObject κ Op σ ρ} {e : LockedEvent κ Op}
  {es : List (LockedEvent κ Op)} {m₀ m : σ}

/-- One step keeps the history and what runs together. -/
theorem step_replays (hbody : ∀ op m, (body op).eval m = spec op m) (hok : s.Enters ok e)
    (hs : s.step body e = some s') (hlog : Replays spec ok m₀ s.log m) (hm : s.Ahead spec ok m) :
    ∃ m', Replays spec ok m₀ s'.log m' ∧ s'.Ahead spec ok m' := by
  obtain ⟨mem, current, log⟩ := s
  cases e with
  | enter i op =>
    obtain - | c := current
    · obtain rfl := Option.some.inj hs
      obtain rfl : mem = m := hm
      exact ⟨mem, hlog, hok, hbody op mem⟩
    · exact absurd hs nofun
  | work =>
    obtain - | ⟨i, op, r | ⟨next, rest⟩⟩ := current
    · exact absurd hs nofun
    · exact absurd hs nofun
    · obtain ⟨mem', hnext, rfl⟩ := Option.map_eq_some_iff.mp hs
      obtain ⟨hop, heval⟩ := hm
      refine ⟨m, hlog, hop, ?_⟩
      rw [← heval, Code.eval, hnext]
      rfl
  | exit =>
    obtain - | ⟨i, op, r | ⟨next, rest⟩⟩ := current
    · exact absurd hs nofun
    · obtain rfl := Option.some.inj hs
      obtain ⟨hop, heval⟩ := hm
      exact ⟨mem, .concat hlog hop heval.symm, rfl⟩
    · exact absurd hs nofun

/-- **Every run is a sequential history**, in which the operation that holds the lock comes next. -/
theorem replays (hbody : ∀ op m, (body op).eval m = spec op m)
    (hr : Run (step body) (Enters ok) (init m₀) es s) :
    ∃ m, Replays spec ok m₀ s.log m ∧ s.Ahead spec ok m := by
  refine hr.invariant (P := fun s => ∃ m, Replays spec ok m₀ s.log m ∧ s.Ahead spec ok m) ?_
    ⟨m₀, .nil, rfl⟩
  rintro s e s' ⟨m, hlog, hm⟩ hok hs
  exact step_replays hbody hok hs hlog hm

end LockedObject

end GoofyOs
