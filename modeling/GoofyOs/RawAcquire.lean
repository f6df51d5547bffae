import GoofyOs.ForMathlib.LockedObject
import Mathlib.Data.Nat.Notation
import Mathlib.Logic.Function.Basic

/-!
# `raw_acquire`

The lock word, and threads that execute the instructions of `raw_acquire` one at a time, on any number
of CPUs and in any order. What the lock protects is a state that they read and write between
`acquire` and `release`. A thread may be stopped anywhere, also with the lock. How the two mask
interrupts is in `Spinlock`.

## Main definitions

* `SpinPc` — where a thread is
* `SpinObject`, `SpinObject.step` — the lock word, the state it protects, and the threads

## Main results

* `SpinObject.refines` — a run is a run of `LockedObject`
* `raw_acquire_replays` — one thread at a time is inside, and the calls are a sequential history
-/

namespace GoofyOs

/-- Where a thread is in the call `op`. -/
inductive SpinPc (Op σ ρ : Type*)
  | out
  /-- at `mov rax, 1` -/
  | mov (op : Op)
  /-- at `xchg rax, [rdi]` -/
  | xchg (op : Op) (rax : BitVec 64)
  /-- at `test rax, rax` -/
  | test (op : Op) (rax : BitVec 64)
  /-- behind `acquire`, and before `lock->locked = 0` -/
  | inside (op : Op) (code : Code σ ρ)

/-- A lock, what it protects, and the threads. The calls that returned are logged. -/
structure SpinObject (κ Op σ ρ : Type*) where
  locked : BitVec 64
  mem : σ
  pc : κ → SpinPc Op σ ρ
  log : List (κ × Op × ρ)

/-- A thread starts a call, or takes its next step. -/
inductive SpinEvent (κ Op : Type*)
  | call (i : κ) (op : Op)
  | next (i : κ)

/-- The call that a thread is in and what is left of its code, once it has swapped a zero. -/
def SpinPc.running {Op σ ρ : Type*} (body : Op → Code σ ρ) : SpinPc Op σ ρ → Option (Op × Code σ ρ)
  | .test op rax => if rax = 0 then some (op, body op) else none
  | .inside op code => some (op, code)
  | _ => none

namespace SpinObject

variable {κ Op σ ρ : Type*} [DecidableEq κ]

/-- The lock is free and nobody calls. -/
def init (m : σ) : SpinObject κ Op σ ρ := ⟨0, m, fun _ => .out, []⟩

/-- Thread `i` goes on at `pc`. -/
def goto (s : SpinObject κ Op σ ρ) (i : κ) (pc : SpinPc Op σ ρ) : SpinObject κ Op σ ρ :=
  { s with pc := Function.update s.pc i pc }

/-- One step. -/
def step (body : Op → Code σ ρ) (s : SpinObject κ Op σ ρ) :
    SpinEvent κ Op → Option (SpinObject κ Op σ ρ)
  | .call i op =>
    match s.pc i with
    | .out => some (s.goto i (.mov op))
    | _ => none
  | .next i =>
    match s.pc i with
    | .out => none
    | .mov op => some (s.goto i (.xchg op 1))
    | .xchg op rax => some ({ s with locked := rax }.goto i (.test op s.locked))
    | .test op rax => some (s.goto i (if rax ≠ 0 then .mov op else .inside op (body op)))
    | .inside op (.step next rest) =>
      (next s.mem).map fun m => { s with mem := m }.goto i (.inside op (rest s.mem))
    | .inside op (.ret r) =>
      some ({ s with locked := 0, log := s.log ++ [(i, op, r)] }.goto i .out)

/-- A thread swaps a zero only where `ok` allows its call. -/
def Enters (ok : List (κ × Op × ρ) → σ → Op → Prop) (s : SpinObject κ Op σ ρ) :
    SpinEvent κ Op → Prop
  | .call _ _ => True
  | .next i => ∀ op rax, s.pc i = .xchg op rax → s.locked = 0 → ok s.log s.mem op

theorem goto_goto (s : SpinObject κ Op σ ρ) (i : κ) (pc pc' : SpinPc Op σ ρ) :
    (s.goto i pc).goto i pc' = s.goto i pc' := by
  rw [goto, goto, goto, Function.update_idem]

/-- A call that finds the lock free and is not disturbed. -/
theorem run_call {f : Op → σ → Option (ρ × σ)} {d r : ρ}
    {ok : List (κ × Op × ρ) → σ → Op → Prop} {s : SpinObject κ Op σ ρ} {m : σ} {i : κ} {op : Op}
    (hpc : s.pc i = .out) (hfree : s.locked = 0) (hok : ok s.log s.mem op)
    (hf : f op s.mem = some (r, m)) :
    Run (step fun op => .atomic (f op) d) (Enters ok) s
      (.call i op :: List.replicate 5 (.next i))
      { s with mem := m, log := s.log ++ [(i, op, r)] } := by
  have hself : Function.update s.pc i .out = s.pc := Function.update_eq_self_iff.mpr hpc.symm
  have hpcs (t : SpinObject κ Op σ ρ) (pc : SpinPc Op σ ρ) : (t.goto i pc).pc i = pc :=
    Function.update_self _ _ _
  have henters (t : SpinObject κ Op σ ρ) {pc : SpinPc Op σ ρ} (hne : ∀ op rax, pc ≠ .xchg op rax) :
      (t.goto i pc).Enters ok (.next i) := fun op' rax h _ =>
    absurd ((hpcs t pc).symm.trans h) (hne op' rax)
  let body : Op → Code σ ρ := fun op => .atomic (f op) d
  let taken : SpinObject κ Op σ ρ := { s with locked := 1 }
  let done : SpinObject κ Op σ ρ := { s with locked := 1, mem := m }
  have hcall : s.step body (.call i op) = some (s.goto i (.mov op)) := by rw [step, hpc]
  have hmov : (s.goto i (.mov op)).step body (.next i) = some (s.goto i (.xchg op 1)) := by
    rw [step, hpcs]
    exact congrArg some (goto_goto s i _ _)
  have hxchg : (s.goto i (.xchg op 1)).step body (.next i) = some (taken.goto i (.test op 0)) := by
    rw [step, hpcs]
    show some ((taken.goto i _).goto i (.test op s.locked)) = _
    rw [goto_goto, hfree]
  have htest : (taken.goto i (.test op 0)).step body (.next i) =
      some (taken.goto i (.inside op (body op))) := by
    rw [step, hpcs]
    exact congrArg some (goto_goto taken i _ _)
  have hwork : (taken.goto i (.inside op (body op))).step body (.next i) =
      some (done.goto i (.inside op (.ret r))) := by
    rw [step, hpcs]
    show ((f op s.mem).map Prod.snd).map _ = _
    rw [hf]
    show some ((done.goto i _).goto i (.inside op (.ret (((f op s.mem).map Prod.fst).getD d)))) = _
    rw [hf, goto_goto]
    rfl
  have hret : (done.goto i (.inside op (.ret r))).step body (.next i) =
      some { s with mem := m, log := s.log ++ [(i, op, r)] } := by
    rw [step, hpcs]
    simp only [goto, done, Function.update_idem, hself, hfree]
  refine .cons trivial hcall (.cons (henters _ nofun) hmov (.cons (fun op' rax h _ => ?_) hxchg
    (.cons (henters _ nofun) htest (.cons (henters _ nofun) hwork (.cons (henters _ nofun) hret
      (.nil _))))))
  obtain ⟨rfl, -⟩ := SpinPc.xchg.inj ((hpcs s (.xchg op 1)).symm.trans h)
  exact hok

/-- The lock word is set while a call runs, which is that of the thread that swapped the zero. -/
structure Refines (body : Op → Code σ ρ) (s : SpinObject κ Op σ ρ) (x : LockedObject κ Op σ ρ) :
    Prop where
  mem : x.mem = s.mem
  log : x.log = s.log
  locked : s.locked = if x.current.isSome then 1 else 0
  rax : ∀ i op rax, s.pc i = .xchg op rax → rax = 1
  current : ∀ i op code, x.current = some (i, op, code) ↔ (s.pc i).running body = some (op, code)

variable {body : Op → Code σ ρ} {spec : Op → σ → Option (ρ × σ)}
  {ok : List (κ × Op × ρ) → σ → Op → Prop} {s s' : SpinObject κ Op σ ρ}
  {x : LockedObject κ Op σ ρ} {e : SpinEvent κ Op} {es : List (SpinEvent κ Op)} {m₀ : σ} {i : κ}

omit [DecidableEq κ] in
theorem Refines.locked_eq_zero (h : s.Refines body x) : s.locked = 0 ↔ x.current = none := by
  rw [h.locked]
  cases x.current with
  | none => simp
  | some c => simp

/-- A thread goes on, with `rax` as `raw_acquire` has it. -/
theorem Refines.update {pc : SpinPc Op σ ρ} (h : s.Refines body x) {s' : SpinObject κ Op σ ρ}
    {x' : LockedObject κ Op σ ρ} (hpc : s'.pc = Function.update s.pc i pc) (hmem : x'.mem = s'.mem)
    (hlog : x'.log = s'.log) (hlocked : s'.locked = if x'.current.isSome then 1 else 0)
    (hrax : ∀ op rax, pc = .xchg op rax → rax = 1)
    (hcur : ∀ op code, x'.current = some (i, op, code) ↔ pc.running body = some (op, code))
    (hother : ∀ j op code, j ≠ i →
      (x'.current = some (j, op, code) ↔ x.current = some (j, op, code))) :
    s'.Refines body x' where
  mem := hmem
  log := hlog
  locked := hlocked
  rax j op rax hj := by
    rw [hpc] at hj
    by_cases hji : j = i
    · rw [hji, Function.update_self] at hj
      exact hrax op rax hj
    · rw [Function.update_of_ne hji] at hj
      exact h.rax j op rax hj
  current j op code := by
    rw [hpc]
    by_cases hji : j = i
    · rw [hji, Function.update_self]
      exact hcur op code
    · rw [Function.update_of_ne hji, hother j op code hji]
      exact h.current j op code

/-- A thread goes on outside: the object does not see it. -/
theorem Refines.goto {pc : SpinPc Op σ ρ} (h : s.Refines body x)
    (hrun : pc.running body = (s.pc i).running body) (hrax : ∀ op rax, pc = .xchg op rax → rax = 1) :
    (s.goto i pc).Refines body x :=
  h.update rfl h.mem h.log h.locked hrax
    (fun op code => by rw [hrun]; exact h.current i op code) fun _ _ _ _ => Iff.rfl

theorem running_test_of_ne {op : Op} {rax : BitVec 64} (h : rax ≠ 0) :
    (SpinPc.test op rax).running body = none := if_neg h

/-- **One step of a thread** is a step of the object, or none. -/
theorem Refines.next (h : s.Refines body x) (hok : s.Enters ok (.next i))
    (hs : s.step body (.next i) = some s') :
    ∃ ds x', Run (LockedObject.step body) (LockedObject.Enters ok) x ds x' ∧ s'.Refines body x' := by
  rw [step] at hs
  cases hpc : s.pc i with
  | out =>
    rw [hpc] at hs
    exact absurd hs nofun
  | mov op =>
    rw [hpc] at hs
    obtain rfl := Option.some.inj hs
    refine ⟨[], x, .nil x, h.goto ?_ fun _ _ heq => ?_⟩
    · rw [hpc]
      rfl
    · injection heq with _ hrax
      exact hrax.symm
  | xchg op rax =>
    rw [hpc] at hs
    obtain rfl := Option.some.inj hs
    obtain rfl : rax = 1 := h.rax i op rax hpc
    by_cases hfree : s.locked = 0
    · -- the thread takes the lock
      have hnone : x.current = none := h.locked_eq_zero.mp hfree
      refine ⟨[.enter i op], { x with current := some (i, op, body op) },
        .cons ?_ ?_ (.nil _), ?_⟩
      · show ok x.log x.mem op
        rw [h.log, h.mem]
        exact hok op 1 hpc hfree
      · rw [LockedObject.step, hnone]
      · refine h.update (i := i) rfl h.mem h.log rfl (fun _ _ heq => nomatch heq)
          (fun op' code => ?_) fun j op' code hji => ?_
        · rw [SpinPc.running, if_pos hfree]
          simp
        · rw [hnone]
          simp [hji.symm]
    · -- another one has it, and the word is set as before
      obtain ⟨c, hc⟩ : ∃ c, x.current = some c :=
        Option.ne_none_iff_exists'.mp (mt h.locked_eq_zero.mpr hfree)
      refine ⟨[], x, .nil x, h.update (i := i) rfl h.mem h.log ?_ (fun _ _ heq => nomatch heq)
        (fun op' code => ?_) fun _ _ _ _ => Iff.rfl⟩
      · rw [hc]
        rfl
      · rw [running_test_of_ne hfree, h.current i op' code, hpc]
        rfl
  | test op rax =>
    rw [hpc] at hs
    obtain rfl := Option.some.inj hs
    by_cases hrax : rax = 0
    · refine ⟨[], x, .nil x, h.goto ?_ fun _ _ heq => ?_⟩
      · rw [hpc, if_neg (not_not.mpr hrax), SpinPc.running, SpinPc.running, if_pos hrax]
      · rw [if_neg (not_not.mpr hrax)] at heq
        exact nomatch heq
    · refine ⟨[], x, .nil x, h.goto ?_ fun _ _ heq => ?_⟩
      · rw [hpc, if_pos hrax, running_test_of_ne hrax]
        rfl
      · rw [if_pos hrax] at heq
        exact nomatch heq
  | inside op code =>
    have hcur : x.current = some (i, op, code) := (h.current i op code).mpr (by rw [hpc]; rfl)
    rw [hpc] at hs
    cases code with
    | ret r =>
      obtain rfl := Option.some.inj hs
      refine ⟨[.exit], { x with current := none, log := x.log ++ [(i, op, r)] },
        .cons trivial ?_ (.nil _), ?_⟩
      · rw [LockedObject.step, hcur]
      · refine h.update (i := i) rfl h.mem ?_ rfl (fun _ _ heq => nomatch heq)
          (fun op' code => ?_) fun j op' code hji => ?_
        · exact congrArg (· ++ [(i, op, r)]) h.log
        · simp [SpinPc.running]
        · rw [hcur]
          simp [hji.symm]
    | step next rest =>
      obtain ⟨m, hm, rfl⟩ := Option.map_eq_some_iff.mp hs
      refine ⟨[.work], { x with mem := m, current := some (i, op, rest s.mem) },
        .cons trivial ?_ (.nil _), ?_⟩
      · rw [LockedObject.step, hcur, h.mem]
        show (next s.mem).map _ = _
        rw [hm, Option.map_some]
      · refine h.update (i := i) rfl rfl h.log ?_ (fun _ _ heq => nomatch heq)
          (fun op' code => ?_) fun j op' code hji => ?_
        · show s.locked = 1
          rw [h.locked, hcur]
          rfl
        · simp [SpinPc.running]
        · rw [hcur]
          simp [hji.symm]

/-- **A run of the threads** is a run of the object. -/
theorem refines (hr : Run (step body) (Enters ok) (init m₀) es s) :
    ∃ ds x, Run (LockedObject.step body) (LockedObject.Enters ok) (.init m₀) ds x ∧
      s.Refines body x := by
  refine hr.simulate_runs (fun s x e s' h hok hs => ?_)
    ⟨rfl, rfl, rfl, nofun, fun _ _ _ => ⟨nofun, nofun⟩⟩
  cases e with
  | next i => exact h.next hok hs
  | call i op =>
    rw [step] at hs
    split at hs
    · next hpc =>
      obtain rfl := Option.some.inj hs
      refine ⟨[], x, .nil x, h.goto ?_ fun _ _ heq => nomatch heq⟩
      rw [hpc]
      rfl
    · exact absurd hs nofun

end SpinObject

/-- **What `acquire` and `release` are for.** However the threads are interleaved, at most one of them
is inside, the lock word is zero if there is none, and the calls that returned are a sequential
history. If nobody is inside it ends at the state as it is, and else at one from which the call that
is inside gets to the same end. -/
theorem raw_acquire_replays {κ Op σ ρ : Type*} [DecidableEq κ] {body : Op → Code σ ρ}
    {spec : Op → σ → Option (ρ × σ)} {ok : List (κ × Op × ρ) → σ → Op → Prop} {m₀ : σ}
    {es : List (SpinEvent κ Op)} {s : SpinObject κ Op σ ρ}
    (hbody : ∀ op m, (body op).eval m = spec op m)
    (hr : Run (SpinObject.step body) (SpinObject.Enters ok) (.init m₀) es s) :
    (∀ i j c d, (s.pc i).running body = some c → (s.pc j).running body = some d → i = j) ∧
      (s.locked = 0 ↔ ∀ i, (s.pc i).running body = none) ∧
      ∃ m, Replays spec ok m₀ s.log m ∧ ((∀ i, (s.pc i).running body = none) → s.mem = m) ∧
        ∀ i op code, (s.pc i).running body = some (op, code) →
          ok s.log m op ∧ code.eval s.mem = spec op m := by
  obtain ⟨ds, x, hx, h⟩ := SpinObject.refines hr
  obtain ⟨m, hlog, hm⟩ := LockedObject.replays hbody hx
  have hfree : x.current = none ↔ ∀ i, (s.pc i).running body = none := by
    constructor
    · intro hnone i
      by_contra hne
      obtain ⟨⟨op, code⟩, hc⟩ := Option.ne_none_iff_exists'.mp hne
      have hcur := (h.current i op code).mpr hc
      rw [hnone] at hcur
      exact nomatch hcur
    · intro hnone
      by_contra hne
      obtain ⟨⟨i, op, code⟩, hc⟩ := Option.ne_none_iff_exists'.mp hne
      have hrun := (h.current i op code).mp hc
      rw [hnone i] at hrun
      exact nomatch hrun
  refine ⟨fun i j c d hi hj => ?_, h.locked_eq_zero.trans hfree, m, h.log ▸ hlog,
    fun hnone => ?_, fun i op code hi => ?_⟩
  · have hci := (h.current i c.1 c.2).mpr hi
    have hcj := (h.current j d.1 d.2).mpr hj
    exact congrArg Prod.fst (Option.some.inj (hci.symm.trans hcj))
  · rw [LockedObject.Ahead, hfree.mpr hnone] at hm
    rw [← h.mem]
    exact hm
  · rw [LockedObject.Ahead, (h.current i op code).mpr hi] at hm
    rw [← h.mem, ← h.log]
    exact hm

/-- A counter that is read and written in two steps. -/
def countTwice (_ : Unit) : Code ℕ ℕ :=
  .step some fun n => .step (fun _ => some (n + 1)) fun _ => .ret n

/-- Two threads count, and the second one swaps while the first one is between its two steps. -/
theorem raw_acquire_replays_two : ∃ s : SpinObject Bool Unit ℕ ℕ,
    (∀ i j c d, (s.pc i).running countTwice = some c → (s.pc j).running countTwice = some d →
      i = j) ∧
      (s.locked = 0 ↔ ∀ i, (s.pc i).running countTwice = none) ∧
      ∃ m, Replays (fun _ n => some (n, n + 1)) (fun _ _ _ => True) 0 s.log m ∧
        ((∀ i, (s.pc i).running countTwice = none) → s.mem = m) ∧
        ∀ i op code, (s.pc i).running countTwice = some (op, code) →
          True ∧ code.eval s.mem = some (m, m + 1) := by
  obtain ⟨s, hs⟩ := Option.isSome_iff_exists.mp (show (Run.check (SpinObject.step countTwice)
    (fun _ _ => True) (.init 0) [.call true (), .next true, .next true, .next true, .next true,
      .call false (), .next false, .next false, .next true, .next true, .next false, .next false,
      .next false, .next false]).isSome = true from rfl)
  refine ⟨s, raw_acquire_replays (fun _ _ => rfl)
    ((Run.of_check hs).mono fun s e _ => ?_)⟩
  cases e with
  | call i op => trivial
  | next i => exact fun _ _ _ _ => trivial

end GoofyOs
