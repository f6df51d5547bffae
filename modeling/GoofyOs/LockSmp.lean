import GoofyOs.ForMathlib.LockOrder
import GoofyOs.ForMathlib.RunSim
import Mathlib.Algebra.GroupWithZero.Nat

/-!
# Locks, interrupts and tasks on several CPUs

All CPUs together: what each of them has left to do with locks, its interrupt flag and `cli_count`,
the code that an interrupt stopped, and the contexts that `save_task` saved. `Spinlock` is one of
them by itself.

`pushcli` looks up its CPU, then counts, and then executes `cli`. Code that is interrupted on the
way may go on as part of a task on another CPU: it would count there for the CPU that it was on, or
have counted on one CPU and mask interrupts on the other one. The count of that CPU may then get
back to zero while there is still a lock.

## Main definitions

* `Pushcli`, `LockCode`, `LockContext` — code, and how far it is in `pushcli`
* `LockCore`, `LockSmp`, `LockSmpEvent`, `LockSmp.step` — the CPUs, and what may happen
* `LockSmp.Works` — what the CPUs start keeps to what it is given, and tasks that were interrupted
  in `pushcli` go on where they are counted
* `LockSmp.Finishes` — steps that start nothing new

## Main results

* `LockSmp.Refines.step` — one step, against the threads of `LockOrder`
* `LockSmp.no_deadlock` — no interrupt while a lock is held, and no deadlock
-/

namespace GoofyOs

/-- How far code is in the `pushcli` of the `acquire` that comes next. -/
inductive Pushcli (κ : Type*)
  | outside
  /-- `curr_cpu` is the `struct cpu` of CPU `i` -/
  | current (i : κ)
  /-- `cli_count` was incremented -/
  | counted
  /-- `cli` was executed, and `raw_acquire` swaps -/
  | masked

/-- How often `cli_count` was incremented for it. -/
def Pushcli.depth {κ : Type*} : Pushcli κ → ℕ
  | outside | current _ => 0
  | counted | masked => 1

/-- The steps to the first `xchg`. -/
def Pushcli.left {κ : Type*} : Pushcli κ → ℕ
  | outside => 3
  | current _ => 2
  | counted => 1
  | masked => 0

/-- Code: the interrupt flag, how far it is in `pushcli`, and what it has left to do. -/
structure LockCode (κ ι : Type*) where
  flag : Bool
  stage : Pushcli κ
  todo : List (LockAction ι)

/-- Code, with the code that it has stopped. -/
structure LockContext (κ ι : Type*) extends LockCode κ ι where
  frames : List (LockCode κ ι)

/-- A CPU. -/
structure LockCore (κ ι : Type*) extends LockContext κ ι where
  cliCount : BitVec 64
  held : List ι

/-- The CPUs, the lock words, and the contexts that were saved. -/
structure LockSmp (κ ι : Type*) where
  cpus : κ → LockCore κ ι
  locked : ι → Bool
  saved : List (LockContext κ ι)

/-- What may happen next on CPU `i`. -/
inductive LockSmpEvent (κ ι : Type*)
  /-- the start of `acquire`, with `current_cpuid` -/
  | currentCpuid (i : κ)
  /-- `curr_cpu->cli_count++`, one instruction -/
  | count (i : κ)
  /-- the `cli` of `pushcli` -/
  | cli (i : κ)
  /-- the `xchg` that reads a zero -/
  | xchg (i : κ)
  | release (i : κ)
  /-- a function is called, which does `t` -/
  | start (i : κ) (t : List (LockAction ι))
  /-- a device interrupts, and the handler does `t` -/
  | interrupt (i : κ) (t : List (LockAction ι))
  /-- an `int` between two calls -/
  | int (i : κ) (t : List (LockAction ι))
  | iretq (i : κ)
  /-- `save_task` and `go_to_task`, in a handler that is done -/
  | goToTask (i : κ) (c : LockContext κ ι)
  /-- `schedule_bsp` -/
  | scheduleBsp (i : κ)
  /-- the `sti` of `sched_idle` -/
  | sti (i : κ)

/-- How often `cli_count` was incremented for stopped code. -/
def LockCode.depths {κ ι : Type*} (fs : List (LockCode κ ι)) : ℕ :=
  (fs.map fun f => f.stage.depth).sum

/-- The code of a context, all of it. -/
def LockContext.codes {κ ι : Type*} (c : LockContext κ ι) : List (LockCode κ ι) :=
  c.toLockCode :: c.frames

namespace LockCore

variable {κ ι : Type*}

/-- The end of `acquire`. -/
def take (c : LockCore κ ι) (l : ι) (t : List (LockAction ι)) : LockCore κ ι :=
  { c with stage := .outside, held := l :: c.held, todo := t }

/-- `release`. -/
def drop [DecidableEq ι] (c : LockCore κ ι) (l : ι) (t : List (LockAction ι)) : LockCore κ ι :=
  { c with
    held := c.held.erase l
    todo := t
    cliCount := c.cliCount - 1
    flag := if c.cliCount - 1 = 0 then true else c.flag }

/-- An interrupt, whose handler does `t`. -/
def stop (c : LockCore κ ι) (t : List (LockAction ι)) : LockCore κ ι :=
  { c with flag := false, stage := .outside, todo := t, frames := c.toLockCode :: c.frames }

end LockCore

namespace LockSmp

variable {κ ι : Type*} [DecidableEq κ] [DecidableEq ι]

/-- All CPUs after `limine_init`. -/
def boot : LockSmp κ ι where
  cpus _ := ⟨⟨⟨false, .outside, []⟩, []⟩, 1, []⟩
  locked _ := false
  saved := []

def set (s : LockSmp κ ι) (i : κ) (c : LockCore κ ι) : LockSmp κ ι :=
  { s with cpus := Function.update s.cpus i c }

/-- `curr_cpu->cli_count++`, for CPU `k`. -/
def increment (s : LockSmp κ ι) (k : κ) : LockSmp κ ι :=
  s.set k { s.cpus k with cliCount := (s.cpus k).cliCount + 1 }

/-- The context that the handler of CPU `i` interrupted, behind those that were saved before. -/
def saveTask (s : LockSmp κ ι) (i : κ) : List (LockContext κ ι) :=
  match (s.cpus i).frames with
  | [] => s.saved
  | f :: fs => ⟨f, fs⟩ :: s.saved

/-- One step, if it can be taken. -/
def step (s : LockSmp κ ι) : LockSmpEvent κ ι → Option (LockSmp κ ι)
  | .currentCpuid i =>
    match (s.cpus i).stage, (s.cpus i).todo with
    | .outside, .take _ :: _ => some (s.set i { s.cpus i with stage := .current i })
    | _, _ => none
  | .count i =>
    match (s.cpus i).stage with
    | .current k =>
      let s := s.increment k
      some (s.set i { s.cpus i with stage := .counted })
    | _ => none
  | .cli i =>
    match (s.cpus i).stage with
    | .counted => some (s.set i { s.cpus i with flag := false, stage := .masked })
    | _ => none
  | .xchg i =>
    match (s.cpus i).stage, (s.cpus i).todo with
    | .masked, .take l :: t =>
      if s.locked l = false then
        some ({ s with locked := Function.update s.locked l true }.set i ((s.cpus i).take l t))
      else none
    | _, _ => none
  | .release i =>
    match (s.cpus i).todo with
    | .drop l :: t =>
      some ({ s with locked := Function.update s.locked l false }.set i ((s.cpus i).drop l t))
    | _ => none
  | .start i t =>
    if (s.cpus i).todo = [] then some (s.set i { s.cpus i with todo := t }) else none
  | .interrupt i t => if (s.cpus i).flag then some (s.set i ((s.cpus i).stop t)) else none
  | .int i t => if (s.cpus i).todo = [] then some (s.set i ((s.cpus i).stop t)) else none
  | .iretq i =>
    match (s.cpus i).todo, (s.cpus i).frames with
    | [], f :: fs => some (s.set i { s.cpus i with toLockCode := f, frames := fs })
    | _, _ => none
  | .goToTask i c =>
    if (s.cpus i).todo = [] then
      some ({ s with saved := s.saveTask i }.set i { s.cpus i with toLockContext := c })
    else none
  | .scheduleBsp i =>
    if (s.cpus i).todo = [] then
      some (s.set i { s.cpus i with flag := false, frames := [], cliCount := 0 })
    else none
  | .sti i =>
    if (s.cpus i).todo = [] then some (s.set i { s.cpus i with flag := true }) else none

end LockSmp

/-- Code that has looked up a CPU in `pushcli` is on it. -/
def LockCode.On {κ ι : Type*} (i : κ) (f : LockCode κ ι) : Prop := ∀ k, f.stage = .current k → k = i

/-- What was interrupted in `pushcli` can go on here: before it has counted, it is on the CPU that
it counts for, and after that it is counted in `cli_count`. -/
structure LockContext.FitsOn {κ ι : Type*} (i : κ) (cliCount : BitVec 64) (c : LockContext κ ι) :
    Prop where
  on : ∀ f ∈ c.codes, f.On i
  depths_le : LockCode.depths c.codes ≤ cliCount.toNat

namespace LockSmp

variable {κ ι : Type*}

/-- The functions and handlers do what `work` allows. A task is new, or its context was saved; and
it goes on where what was interrupted in `pushcli` can go on. -/
def Works (work : List (LockAction ι) → Prop) (s : LockSmp κ ι) : LockSmpEvent κ ι → Prop
  | .start _ t | .interrupt _ t | .int _ t => work t
  | .goToTask i c =>
    (c ∈ s.saveTask i ∨ c.stage = .outside ∧ c.todo = [] ∧ c.frames = []) ∧
      c.FitsOn i (s.cpus i).cliCount
  | _ => True

/-- Steps of code that has started: the calls go on, and the handlers return. -/
def Finishes (_ : LockSmp κ ι) : LockSmpEvent κ ι → Prop
  | .currentCpuid _ | .count _ | .cli _ | .xchg _ | .release _ | .iretq _ => True
  | _ => False

end LockSmp

section Fit

variable {κ ι : Type*} [DecidableEq ι] {rank : ι → ℕ} {n M M' : ℕ} {i : κ}

/-- Code that was stopped: it holds no lock, and it is in `pushcli` only before an `acquire`, where
interrupts are not masked yet. -/
structure LockCode.Stopped (rank : ι → ℕ) (f : LockCode κ ι) : Prop where
  ranked : Ranked rank [] f.todo
  unmasked : f.stage ≠ .masked
  waits : f.stage ≠ .outside → ∃ l t, f.todo = .take l :: t

/-- CPU `i` counts at least how deep it is, and there is room in its count for `n` locks; it is deaf
while it is in `raw_acquire` or has a lock. -/
structure LockCore.Fit (rank : ι → ℕ) (n M : ℕ) (i : κ) (c : LockCore κ ι) : Prop where
  le_count : c.held.length + c.stage.depth + LockCode.depths c.frames ≤ c.cliCount.toNat
  room : c.cliCount.toNat + (n - c.held.length) + (1 - c.stage.depth) ≤ M
  deaf : c.held ≠ [] ∨ c.stage = .masked → c.flag = false
  waits : c.stage ≠ .outside → ∃ l t, c.todo = .take l :: t
  on : c.toLockCode.On i
  frames : ∀ f ∈ c.frames, f.Stopped rank ∧ f.On i

theorem LockCore.Fit.mono {c : LockCore κ ι} (h : c.Fit rank n M i) (hM : M ≤ M') :
    c.Fit rank n M' i :=
  { h with room := h.room.trans hM }

/-- What the count allows where `pushcli` has not counted. -/
theorem LockCore.Fit.bounds {c : LockCore κ ι} (h : c.Fit rank n M i) (hdepth : c.stage.depth = 0) :
    c.held.length + LockCode.depths c.frames ≤ c.cliCount.toNat ∧
      c.cliCount.toNat + (n - c.held.length) + 1 ≤ M := by
  have hle := h.le_count
  have hroom := h.room
  rw [hdepth] at hle hroom
  exact ⟨hle, hroom⟩

/-- A CPU that holds no lock, with code that may be stopped. -/
theorem LockCore.Fit.of_codes {c : LockCore κ ι} (hheld : c.held = [])
    (hcodes : ∀ f ∈ c.codes, f.Stopped rank ∧ f.On i)
    (hcount : LockCode.depths c.codes ≤ c.cliCount.toNat) (hroom : c.cliCount.toNat + n + 1 ≤ M) :
    c.Fit rank n M i where
  le_count := by
    rw [LockCode.depths, LockContext.codes, List.map_cons, List.sum_cons] at hcount
    rw [hheld, List.length_nil, Nat.zero_add]
    exact hcount
  room := by
    rw [hheld, List.length_nil, Nat.sub_zero]
    omega
  deaf hbusy := by
    obtain hne | hmasked := hbusy
    · exact absurd hheld hne
    · exact absurd hmasked (hcodes _ List.mem_cons_self).1.unmasked
  waits := (hcodes _ List.mem_cons_self).1.waits
  on := (hcodes _ List.mem_cons_self).2
  frames f hf := hcodes f (List.mem_cons_of_mem _ hf)

omit [DecidableEq ι] in
theorem LockCode.on_of_ne {f : LockCode κ ι} (h : ∀ k, f.stage ≠ .current k) : f.On i :=
  fun k hk => absurd hk (h k)

/-- Code outside of `pushcli`. -/
theorem LockCode.stopped_of_outside {f : LockCode κ ι} (hstage : f.stage = .outside)
    (hranked : Ranked rank [] f.todo) : f.Stopped rank ∧ f.On i := by
  refine ⟨⟨hranked, ?_, fun hne => absurd hstage hne⟩, LockCode.on_of_ne fun k => ?_⟩
  · rw [hstage]
    exact nofun
  · rw [hstage]
    exact nofun

end Fit

namespace LockSmp

variable {κ ι : Type*} [DecidableEq ι] {rank : ι → ℕ} {n M M' : ℕ} {s s' : LockSmp κ ι}
  {x x' : LockThreads κ ι} {i : κ} {l : ι} {t : List (LockAction ι)} {c : LockCore κ ι}
  {work : List (LockAction ι) → Prop}

/-- What is on the CPUs, as threads. -/
structure Refines (rank : ι → ℕ) (n M : ℕ) (s : LockSmp κ ι) (x : LockThreads κ ι) : Prop where
  inv : x.Inv rank
  held : ∀ i, x.held i = (s.cpus i).held
  todo : ∀ i, x.todo i = (s.cpus i).todo
  locked : ∀ l, s.locked l = (x.owner l).isSome
  fit : ∀ i, (s.cpus i).Fit rank n M i
  saved : ∀ c ∈ s.saved, ∀ f ∈ c.codes, f.Stopped rank

theorem Refines.mono (h : s.Refines rank n M x) (hM : M ≤ M') : s.Refines rank n M' x :=
  { h with fit := fun i => (h.fit i).mono hM }

theorem Refines.ranked (h : s.Refines rank n M x) (i : κ) :
    Ranked rank (s.cpus i).held (s.cpus i).todo := by
  rw [← h.held i, ← h.todo i]
  exact h.inv.ranked i

/-- Code that is done has nothing, and is in no `acquire`. -/
theorem Refines.done (h : s.Refines rank n M x) (ht : (s.cpus i).todo = []) :
    (s.cpus i).held = [] ∧ (s.cpus i).stage = .outside := by
  have hr := h.ranked i
  rw [ht] at hr
  refine ⟨hr, ?_⟩
  by_contra hstage
  obtain ⟨l, t, hlt⟩ := (h.fit i).waits hstage
  rw [ht] at hlt
  exact absurd hlt nofun

/-- What `save_task` saves was stopped. -/
theorem Refines.saveTask (h : s.Refines rank n M x) (i : κ) :
    ∀ c ∈ s.saveTask i, ∀ f ∈ c.codes, f.Stopped rank := by
  have hframes := (h.fit i).frames
  intro c hc
  rw [LockSmp.saveTask] at hc
  cases hfs : (s.cpus i).frames with
  | nil =>
    rw [hfs] at hc
    exact h.saved c hc
  | cons f fs =>
    rw [hfs] at hc hframes
    obtain rfl | hc := List.mem_cons.mp hc
    · exact fun g hg => (hframes g hg).1
    · exact h.saved c hc

variable [DecidableEq κ]

/-- One CPU goes on. -/
theorem Refines.update (h : s.Refines rank n M x) (hcpus : s'.cpus = Function.update s.cpus i c)
    (hinv : x'.Inv rank) (hheld : x'.held = Function.update x.held i c.held)
    (htodo : x'.todo = Function.update x.todo i c.todo)
    (hlocked : ∀ l, s'.locked l = (x'.owner l).isSome) (hfit : c.Fit rank n M i)
    (hsaved : ∀ c ∈ s'.saved, ∀ f ∈ c.codes, f.Stopped rank) : s'.Refines rank n M x' where
  inv := hinv
  held j := by
    rw [hheld, hcpus]
    by_cases hj : j = i
    · rw [hj, Function.update_self, Function.update_self]
    · rw [Function.update_of_ne hj, Function.update_of_ne hj, h.held]
  todo j := by
    rw [htodo, hcpus]
    by_cases hj : j = i
    · rw [hj, Function.update_self, Function.update_self]
    · rw [Function.update_of_ne hj, Function.update_of_ne hj, h.todo]
  locked := hlocked
  fit j := by
    rw [hcpus]
    by_cases hj : j = i
    · rw [hj, Function.update_self]
      exact hfit
    · rw [Function.update_of_ne hj]
      exact h.fit j
  saved := hsaved

/-- One CPU goes on in `pushcli`: the threads do not see it. -/
theorem Refines.stage (h : s.Refines rank n M x) (hheld : c.held = (s.cpus i).held)
    (htodo : c.todo = (s.cpus i).todo) (hfit : c.Fit rank n M i) :
    (s.set i c).Refines rank n M x := by
  refine h.update rfl h.inv ?_ ?_ h.locked hfit h.saved
  · rw [hheld, ← h.held, Function.update_eq_self]
  · rw [htodo, ← h.todo, Function.update_eq_self]

/-- A CPU that has no lock turns to other code. -/
theorem Refines.leave (h : s.Refines rank n M x) (hcpus : s'.cpus = Function.update s.cpus i c)
    (hlocked : s'.locked = s.locked) (hheld : (s.cpus i).held = []) (hheld' : c.held = [])
    (hcodes : ∀ f ∈ c.codes, f.Stopped rank ∧ f.On i)
    (hcount : LockCode.depths c.codes ≤ c.cliCount.toNat) (hroom : c.cliCount.toNat + n + 1 ≤ M)
    (hsaved : ∀ c ∈ s'.saved, ∀ f ∈ c.codes, f.Stopped rank) :
    ∃ x', s'.Refines rank n M x' := by
  have hself : x.held = Function.update x.held i c.held := by
    rw [hheld', ← hheld, ← h.held, Function.update_eq_self]
  refine ⟨{ x with todo := Function.update x.todo i c.todo }, h.update hcpus
    ⟨fun j => ?_, h.inv.sorted, h.inv.owner⟩ hself rfl (fun l => hlocked ▸ h.locked l)
    (.of_codes hheld' hcodes hcount hroom) hsaved⟩
  by_cases hj : j = i
  · subst hj
    simp only [Function.update_self]
    rw [h.held, hheld]
    exact (hcodes _ List.mem_cons_self).1.ranked
  · simp only [Function.update_of_ne hj]
    exact h.inv.ranked j

omit [DecidableEq ι] in
theorem set_self (s : LockSmp κ ι) (i : κ) : s.set i (s.cpus i) = s := by
  rw [LockSmp.set, Function.update_eq_self]

omit [DecidableEq ι] in
theorem set_set (s : LockSmp κ ι) (i : κ) (c c' : LockCore κ ι) :
    (s.set i c).set i c' = s.set i c' := by
  rw [LockSmp.set, LockSmp.set, LockSmp.set, Function.update_idem]

omit [DecidableEq ι] in
theorem set_cpus_self (s : LockSmp κ ι) (i : κ) (c : LockCore κ ι) : (s.set i c).cpus i = c := by
  show Function.update s.cpus i c i = c
  rw [Function.update_self]

omit [DecidableEq ι] in
/-- Code that counts for its own CPU. -/
theorem increment_set (s : LockSmp κ ι) (i : κ) :
    s.set i { s.cpus i with cliCount := (s.cpus i).cliCount + 1, stage := .counted } =
      (s.increment i).set i { (s.increment i).cpus i with stage := .counted } := by
  rw [LockSmp.increment, set_set, set_cpus_self]

/-- `current_cpuid`. -/
theorem Refines.currentCpuid (h : s.Refines rank n M x) (ht : (s.cpus i).todo = .take l :: t)
    (hstage : (s.cpus i).stage = .outside) :
    (s.set i { s.cpus i with stage := .current i }).Refines rank n M x := by
  have hfit := h.fit i
  have hle := hfit.le_count
  have hroom := hfit.room
  rw [hstage] at hle hroom
  refine h.stage rfl rfl ⟨hle, hroom, fun hbusy => hfit.deaf ?_, fun _ => ⟨l, t, ht⟩,
    fun k hk => ?_, hfit.frames⟩
  · obtain hne | hmasked := hbusy
    · exact .inl hne
    · exact absurd hmasked nofun
  · exact (Pushcli.current.inj hk).symm

/-- `curr_cpu->cli_count++`, which does not overflow. -/
theorem Refines.count (h : s.Refines rank n M x) (hM : M < 2 ^ 64)
    (hstage : (s.cpus i).stage = .current i) :
    (s.set i { s.cpus i with
      cliCount := (s.cpus i).cliCount + 1, stage := .counted }).Refines rank n M x := by
  have hfit := h.fit i
  obtain ⟨hle, hroom⟩ := hfit.bounds (by rw [hstage]; rfl)
  have hadd : ((s.cpus i).cliCount + 1).toNat = (s.cpus i).cliCount.toNat + 1 := by
    rw [BitVec.toNat_add]
    show ((s.cpus i).cliCount.toNat + 1) % 2 ^ 64 = _
    omega
  refine h.stage rfl rfl ⟨?_, ?_, fun hbusy => hfit.deaf ?_, fun _ => hfit.waits ?_,
    LockCode.on_of_ne fun k => nofun, hfit.frames⟩
  · show (s.cpus i).held.length + 1 + LockCode.depths (s.cpus i).frames ≤
      ((s.cpus i).cliCount + 1).toNat
    omega
  · show ((s.cpus i).cliCount + 1).toNat + (n - (s.cpus i).held.length) + (1 - 1) ≤ M
    omega
  · obtain hne | hmasked := hbusy
    · exact .inl hne
    · exact absurd hmasked nofun
  · rw [hstage]
    exact nofun

/-- The `cli`. -/
theorem Refines.cli (h : s.Refines rank n M x) (hstage : (s.cpus i).stage = .counted) :
    (s.set i { s.cpus i with flag := false, stage := .masked }).Refines rank n M x := by
  have hfit := h.fit i
  have hle := hfit.le_count
  have hroom := hfit.room
  rw [hstage] at hle hroom
  refine h.stage rfl rfl ⟨hle, hroom, fun _ => rfl, fun _ => hfit.waits ?_,
    LockCode.on_of_ne fun k => nofun, hfit.frames⟩
  rw [hstage]
  exact nofun

/-- The `xchg` that reads a zero: a thread takes the lock. -/
theorem Refines.xchg (h : s.Refines rank n M x) (hn : ∀ l, rank l < n)
    (ht : (s.cpus i).todo = .take l :: t) (hstage : (s.cpus i).stage = .masked)
    (hfree : s.locked l = false) :
    ∃ x', x.act i = some x' ∧
      ({ s with locked := Function.update s.locked l true }.set i
        ((s.cpus i).take l t)).Refines rank n M x' := by
  have hnone : x.owner l = none := by
    have hl := h.locked l
    rw [hfree] at hl
    exact Option.isNone_iff_eq_none.mp (by rw [← Option.not_isSome, ← hl]; rfl)
  have hact := LockThreads.act_take ((h.todo i).trans ht) hnone
  have hinv := (h.inv.act hact).1
  have hlen : (s.cpus i).held.length + 1 ≤ n := by
    have hlen := hinv.length_le hn i
    simp only [Function.update_self, List.length_cons] at hlen
    rw [h.held i] at hlen
    exact hlen
  have hfit := h.fit i
  have hle := hfit.le_count
  have hroom := hfit.room
  rw [hstage] at hle hroom
  refine ⟨_, hact, h.update rfl hinv ?_ rfl (fun l' => ?_)
    ⟨?_, ?_, fun _ => hfit.deaf (.inr hstage), fun hne => absurd rfl hne,
      LockCode.on_of_ne fun k => nofun, hfit.frames⟩ h.saved⟩
  · rw [h.held i]
    rfl
  · show Function.update s.locked l true l' = (Function.update x.owner l (some i) l').isSome
    by_cases hl : l' = l
    · rw [hl, Function.update_self, Function.update_self]
      rfl
    · rw [Function.update_of_ne hl, Function.update_of_ne hl]
      exact h.locked l'
  · show (s.cpus i).held.length + 1 + 0 + LockCode.depths (s.cpus i).frames ≤ _
    exact hle
  · have hroom' : (s.cpus i).cliCount.toNat + (n - (s.cpus i).held.length) + (1 - 1) ≤ M := hroom
    show (s.cpus i).cliCount.toNat + (n - ((s.cpus i).held.length + 1)) + (1 - 0) ≤ M
    omega

/-- `release`: a thread gives the lock back. -/
theorem Refines.release (h : s.Refines rank n M x) (hn : ∀ l, rank l < n)
    (ht : (s.cpus i).todo = .drop l :: t) :
    ∃ x', x.act i = some x' ∧
      ({ s with locked := Function.update s.locked l false }.set i
        ((s.cpus i).drop l t)).Refines rank n M x' := by
  have hact := LockThreads.act_drop ((h.todo i).trans ht)
  have hmem : l ∈ (s.cpus i).held := by
    have hr := h.ranked i
    rw [ht] at hr
    exact hr.1
  have hstage : (s.cpus i).stage = .outside := by
    by_contra hstage
    obtain ⟨l', t', hlt⟩ := (h.fit i).waits hstage
    rw [ht] at hlt
    exact absurd hlt (by simp)
  have hlen : ((s.cpus i).held.erase l).length + 1 = (s.cpus i).held.length :=
    List.length_erase_add_one hmem
  have hmax : (s.cpus i).held.length ≤ n := h.held i ▸ h.inv.length_le hn i
  have hfit := h.fit i
  obtain ⟨hle, hroom⟩ := hfit.bounds (by rw [hstage]; rfl)
  have hsub : ((s.cpus i).cliCount - 1).toNat = (s.cpus i).cliCount.toNat - 1 := by
    have hlt := (s.cpus i).cliCount.isLt
    rw [BitVec.toNat_sub]
    show (2 ^ 64 - 1 + (s.cpus i).cliCount.toNat) % 2 ^ 64 = _
    omega
  refine ⟨_, hact, h.update rfl (h.inv.act hact).1 ?_ rfl (fun l' => ?_)
    ⟨?_, ?_, fun hbusy => ?_, fun hne => absurd hstage hne,
      LockCode.on_of_ne fun k hk => ?_, hfit.frames⟩ h.saved⟩
  · rw [h.held i]
    rfl
  · show Function.update s.locked l false l' = (Function.update x.owner l none l').isSome
    by_cases hl : l' = l
    · rw [hl, Function.update_self, Function.update_self]
      rfl
    · rw [Function.update_of_ne hl, Function.update_of_ne hl]
      exact h.locked l'
  · show ((s.cpus i).held.erase l).length + (s.cpus i).stage.depth +
      LockCode.depths (s.cpus i).frames ≤ ((s.cpus i).cliCount - 1).toNat
    rw [hstage]
    show ((s.cpus i).held.erase l).length + 0 + _ ≤ _
    omega
  · show ((s.cpus i).cliCount - 1).toNat + (n - ((s.cpus i).held.erase l).length) +
      (1 - (s.cpus i).stage.depth) ≤ M
    rw [hstage]
    show _ + _ + (1 - 0) ≤ M
    omega
  · have hpos : ((s.cpus i).held.erase l).length ≠ 0 := by
      obtain hne | hmasked := hbusy
      · exact fun hzero => hne (List.eq_nil_of_length_eq_zero hzero)
      · rw [show ((s.cpus i).drop l t).stage = .outside from hstage] at hmasked
        exact absurd hmasked nofun
    show (if (s.cpus i).cliCount - 1 = 0 then true else (s.cpus i).flag) = false
    rw [if_neg, hfit.deaf (.inl (List.ne_nil_of_mem hmem))]
    intro hzero
    rw [hzero] at hsub
    have : (0 : BitVec 64).toNat = 0 := rfl
    omega
  · rw [show ((s.cpus i).drop l t).stage = .outside from hstage] at hk
    exact absurd hk nofun

omit [DecidableEq κ] in
/-- The count of a CPU whose code is done. -/
theorem Refines.idle (h : s.Refines rank n M x) (ht : (s.cpus i).todo = []) :
    LockCode.depths (s.cpus i).frames ≤ (s.cpus i).cliCount.toNat ∧
      (s.cpus i).cliCount.toNat + n + 1 ≤ M := by
  obtain ⟨hheld, hstage⟩ := h.done ht
  have hbounds := (h.fit i).bounds (by rw [hstage]; rfl)
  rw [hheld, List.length_nil, Nat.zero_add, Nat.sub_zero] at hbounds
  exact hbounds

/-- A CPU whose code is done does something else outside of `pushcli`. -/
theorem Refines.turn (h : s.Refines rank n M x) (ht : (s.cpus i).todo = [])
    (hheld : c.held = (s.cpus i).held) (hstage : c.stage = .outside) (htodo : Ranked rank [] c.todo)
    (hframes : ∀ f ∈ c.frames, f.Stopped rank ∧ f.On i)
    (hcount : LockCode.depths c.frames ≤ c.cliCount.toNat)
    (hroom : c.cliCount.toNat ≤ (s.cpus i).cliCount.toNat) :
    ∃ x', (s.set i c).Refines rank n M x' := by
  have hidle := (h.idle ht).2
  refine h.leave rfl rfl (h.done ht).1 (hheld.trans (h.done ht).1) (fun f hf => ?_) ?_ (by omega)
    h.saved
  · obtain rfl | hf := List.mem_cons.mp hf
    · exact LockCode.stopped_of_outside hstage htodo
    · exact hframes f hf
  · rw [LockCode.depths, LockContext.codes, List.map_cons, List.sum_cons, hstage]
    show 0 + LockCode.depths c.frames ≤ _
    omega

/-- An interrupt: what was stopped can go on here. -/
theorem Refines.interrupt (h : s.Refines rank n M x) (hflag : (s.cpus i).flag = true)
    (ht : Ranked rank [] t) : ∃ x', (s.set i ((s.cpus i).stop t)).Refines rank n (M + 1) x' := by
  have hfit := h.fit i
  have hheld : (s.cpus i).held = [] := by
    by_contra hne
    rw [hfit.deaf (.inl hne)] at hflag
    exact absurd hflag Bool.false_ne_true
  have hr := h.ranked i
  rw [hheld] at hr
  have hstopped : (s.cpus i).toLockCode.Stopped rank := by
    refine ⟨hr, fun hmasked => ?_, hfit.waits⟩
    rw [hfit.deaf (.inr hmasked)] at hflag
    exact absurd hflag Bool.false_ne_true
  have hle := hfit.le_count
  have hroom := hfit.room
  rw [hheld, List.length_nil] at hle hroom
  refine (h.mono (Nat.le_succ M)).leave rfl rfl hheld hheld (fun f hf => ?_) ?_ ?_ h.saved
  · obtain rfl | hf := List.mem_cons.mp hf
    · exact LockCode.stopped_of_outside rfl ht
    · obtain rfl | hf := List.mem_cons.mp hf
      · exact ⟨hstopped, hfit.on⟩
      · exact hfit.frames f hf
  · show 0 + ((s.cpus i).stage.depth + LockCode.depths (s.cpus i).frames) ≤
      (s.cpus i).cliCount.toNat
    omega
  · show (s.cpus i).cliCount.toNat + n + 1 ≤ M + 1
    omega

/-- An `int` of code that is done. -/
theorem Refines.int (h : s.Refines rank n M x) (ht : (s.cpus i).todo = [])
    (ht' : Ranked rank [] t) : ∃ x', (s.set i ((s.cpus i).stop t)).Refines rank n M x' := by
  have hstage := (h.done ht).2
  have hcode : (s.cpus i).toLockCode.Stopped rank ∧ (s.cpus i).toLockCode.On i :=
    LockCode.stopped_of_outside hstage (by rw [ht]; rfl)
  refine h.turn ht rfl rfl ht' (fun f hf => ?_) ?_ le_rfl
  · obtain rfl | hf := List.mem_cons.mp hf
    · exact hcode
    · exact (h.fit i).frames f hf
  · show (s.cpus i).stage.depth + LockCode.depths (s.cpus i).frames ≤ (s.cpus i).cliCount.toNat
    rw [hstage]
    exact (Nat.zero_add _).trans_le (h.idle ht).1

/-- `iretq`: the code that was stopped goes on. -/
theorem Refines.iretq {f : LockCode κ ι} {fs : List (LockCode κ ι)} (h : s.Refines rank n M x)
    (ht : (s.cpus i).todo = []) (hfs : (s.cpus i).frames = f :: fs) :
    ∃ x', (s.set i { s.cpus i with toLockCode := f, frames := fs }).Refines rank n M x' := by
  have hidle := h.idle ht
  have hframes := (h.fit i).frames
  rw [hfs] at hidle hframes
  exact h.leave rfl rfl (h.done ht).1 (h.done ht).1 hframes hidle.1 hidle.2 h.saved

/-- `save_task` and `go_to_task`. -/
theorem Refines.goToTask {d : LockContext κ ι} (h : s.Refines rank n M x)
    (ht : (s.cpus i).todo = [])
    (hd : d ∈ s.saveTask i ∨ d.stage = .outside ∧ d.todo = [] ∧ d.frames = [])
    (hfits : d.FitsOn i (s.cpus i).cliCount) :
    ∃ x', ({ s with saved := s.saveTask i }.set i
      { s.cpus i with toLockContext := d }).Refines rank n M x' := by
  refine h.leave rfl rfl (h.done ht).1 (h.done ht).1 (fun f hf => ⟨?_, hfits.on f hf⟩)
    hfits.depths_le (h.idle ht).2 (h.saveTask i)
  obtain hd | ⟨hstage, htodo, hframes⟩ := hd
  · exact h.saveTask i d hd f hf
  · obtain rfl | hf := List.mem_cons.mp hf
    · exact (LockCode.stopped_of_outside (i := i) hstage (by rw [htodo]; rfl)).1
    · rw [show ({ s.cpus i with toLockContext := d } : LockCore κ ι).frames = d.frames from rfl,
        hframes] at hf
      exact absurd hf List.not_mem_nil

/-- **One step** keeps the order of the locks. -/
theorem Refines.step {e : LockSmpEvent κ ι} (h : s.Refines rank n M x) (hn : ∀ l, rank l < n)
    (hM : M < 2 ^ 64) (hwork : ∀ t, work t → Ranked rank [] t) (hok : s.Works work e)
    (hs : s.step e = some s') : ∃ x', s'.Refines rank n (M + 1) x' := by
  have h' := h.mono (Nat.le_succ M)
  cases e with
  | currentCpuid i =>
    rw [LockSmp.step] at hs
    split at hs
    · next l t hstage ht =>
      obtain rfl := Option.some.inj hs
      exact ⟨x, h'.currentCpuid ht hstage⟩
    · exact absurd hs nofun
  | count i =>
    rw [LockSmp.step] at hs
    split at hs
    · next k hstage =>
      obtain rfl := Option.some.inj hs
      obtain rfl := (h.fit i).on k hstage
      exact ⟨x, increment_set s k ▸ (h.count hM hstage).mono (Nat.le_succ M)⟩
    · exact absurd hs nofun
  | cli i =>
    rw [LockSmp.step] at hs
    split at hs
    · next hstage =>
      obtain rfl := Option.some.inj hs
      exact ⟨x, h'.cli hstage⟩
    · exact absurd hs nofun
  | xchg i =>
    rw [LockSmp.step] at hs
    split at hs
    · next l t hstage ht =>
      split at hs
      · next hfree =>
        obtain rfl := Option.some.inj hs
        obtain ⟨x', -, hx'⟩ := h'.xchg hn ht hstage hfree
        exact ⟨x', hx'⟩
      · exact absurd hs nofun
    · exact absurd hs nofun
  | release i =>
    rw [LockSmp.step] at hs
    split at hs
    · next l t ht =>
      obtain rfl := Option.some.inj hs
      obtain ⟨x', -, hx'⟩ := h'.release hn ht
      exact ⟨x', hx'⟩
    · exact absurd hs nofun
  | start i t =>
    rw [LockSmp.step] at hs
    split at hs
    · next ht =>
      obtain rfl := Option.some.inj hs
      exact h'.turn ht rfl (h.done ht).2 (hwork t hok) (h.fit i).frames (h.idle ht).1 le_rfl
    · exact absurd hs nofun
  | interrupt i t =>
    rw [LockSmp.step] at hs
    split at hs
    · next hflag =>
      obtain rfl := Option.some.inj hs
      exact h.interrupt hflag (hwork t hok)
    · exact absurd hs nofun
  | int i t =>
    rw [LockSmp.step] at hs
    split at hs
    · next ht =>
      obtain rfl := Option.some.inj hs
      exact h'.int ht (hwork t hok)
    · exact absurd hs nofun
  | iretq i =>
    rw [LockSmp.step] at hs
    split at hs
    · next f fs ht hfs =>
      obtain rfl := Option.some.inj hs
      exact h'.iretq ht hfs
    · exact absurd hs nofun
  | goToTask i c =>
    rw [LockSmp.step] at hs
    split at hs
    · next ht =>
      obtain rfl := Option.some.inj hs
      exact h'.goToTask ht hok.1 hok.2
    · exact absurd hs nofun
  | scheduleBsp i =>
    rw [LockSmp.step] at hs
    split at hs
    · next ht =>
      obtain rfl := Option.some.inj hs
      exact h'.turn ht rfl (h.done ht).2 (by rw [ht]; rfl) nofun (Nat.zero_le _) (Nat.zero_le _)
    · exact absurd hs nofun
  | sti i =>
    rw [LockSmp.step] at hs
    split at hs
    · next ht =>
      obtain rfl := Option.some.inj hs
      exact h'.turn ht rfl (h.done ht).2 (by rw [ht]; rfl) (h.fit i).frames (h.idle ht).1 le_rfl
    · exact absurd hs nofun

/-- A CPU that is not masked yet gets closer to its `xchg`. -/
theorem Refines.exists_closer (h : s.Refines rank n M x) (hM : M < 2 ^ 64)
    (ht : (s.cpus i).todo = .take l :: t) (hstage : (s.cpus i).stage ≠ .masked) :
    ∃ e c, Finishes s e ∧ s.step e = some (s.set i c) ∧ (s.set i c).Refines rank n M x ∧
      c.todo = (s.cpus i).todo ∧ c.frames = (s.cpus i).frames ∧
      c.stage.left < (s.cpus i).stage.left := by
  cases hp : (s.cpus i).stage with
  | outside =>
    refine ⟨.currentCpuid i, _, trivial, ?_, h.currentCpuid ht hp, rfl, rfl, Nat.lt_succ_self 2⟩
    rw [LockSmp.step, hp, ht]
  | current k =>
    obtain rfl := (h.fit i).on k hp
    refine ⟨.count k, _, trivial, ?_, h.count hM hp, rfl, rfl, Nat.lt_succ_self 1⟩
    rw [increment_set, LockSmp.step, hp]
  | counted =>
    refine ⟨.cli i, _, trivial, ?_, h.cli hp, rfl, rfl, Nat.lt_succ_self 0⟩
    rw [LockSmp.step, hp]
  | masked => exact absurd hp hstage

/-- `pushcli` comes to its end. -/
theorem Refines.exists_masked (h : s.Refines rank n M x) (hM : M < 2 ^ 64)
    (ht : (s.cpus i).todo = .take l :: t) : ∃ ds c, Run LockSmp.step Finishes s ds (s.set i c) ∧
      (s.set i c).Refines rank n M x ∧ c.todo = .take l :: t ∧ c.frames = (s.cpus i).frames ∧
      c.stage = .masked := by
  -- by induction on the steps to the `xchg`
  induction hk : (s.cpus i).stage.left using Nat.strong_induction_on generalizing s with
  | _ k ih =>
    by_cases hstage : (s.cpus i).stage = .masked
    · refine ⟨[], s.cpus i, ?_, ?_, ht, rfl, hstage⟩
      · rw [set_self]
        exact .nil s
      · rw [set_self]
        exact h
    · obtain ⟨e, c, he, hs, h', htodo, hframes, hless⟩ := h.exists_closer hM ht hstage
      have hcpu := set_cpus_self s i c
      obtain ⟨ds, c', hrun, h'', htodo', hframes', hmasked⟩ :=
        ih c.stage.left (hk ▸ hless) h' (by rw [hcpu, htodo, ht]) (by rw [hcpu])
      rw [set_set] at hrun h''
      rw [hcpu, hframes] at hframes'
      exact ⟨e :: ds, c', .cons he hs hrun, h'', htodo', hframes', hmasked⟩

/-- What a thread does, its CPU does in up to four steps. No handler starts or returns. -/
theorem Refines.act (h : s.Refines rank n M x) (hn : ∀ l, rank l < n) (hM : M < 2 ^ 64)
    (hact : x.act i = some x') : ∃ ds s', Run LockSmp.step Finishes s ds s' ∧
      s'.Refines rank n M x' ∧ ∀ j, (s'.cpus j).frames = (s.cpus j).frames := by
  have hframes (c : LockCore κ ι) (hc : c.frames = (s.cpus i).frames) (j : κ) :
      (Function.update s.cpus i c j).frames = (s.cpus j).frames := by
    by_cases hj : j = i
    · rw [hj, Function.update_self, hc]
    · rw [Function.update_of_ne hj]
  cases ht : (s.cpus i).todo with
  | nil =>
    rw [LockThreads.act, h.todo i, ht] at hact
    exact absurd hact.symm (Option.some_ne_none x')
  | cons a t =>
    cases a with
    | drop l =>
      obtain ⟨x₁, hact₁, h₁⟩ := h.release hn ht
      obtain rfl := Option.some.inj (hact₁.symm.trans hact)
      refine ⟨[.release i], _, .cons trivial ?_ (.nil _), h₁, hframes _ rfl⟩
      rw [LockSmp.step, ht]
    | take l =>
      have hfree : s.locked l = false := by
        rw [LockThreads.act, h.todo i, ht] at hact
        cases ho : x.owner l with
        | none =>
          rw [h.locked l, ho]
          rfl
        | some j =>
          simp only [ho] at hact
          exact absurd hact.symm (Option.some_ne_none x')
      obtain ⟨ds, c, hrun, h₀, htodo, hfs, hmasked⟩ := h.exists_masked hM ht
      have hcpu := set_cpus_self s i c
      have ht₀ : ((s.set i c).cpus i).todo = .take l :: t := by rw [hcpu, htodo]
      have hmasked₀ : ((s.set i c).cpus i).stage = .masked := by rw [hcpu, hmasked]
      obtain ⟨x₁, hact₁, h₁⟩ := h₀.xchg hn ht₀ hmasked₀ hfree
      obtain rfl := Option.some.inj (hact₁.symm.trans hact)
      refine ⟨ds ++ [.xchg i], _,
        hrun.append (.cons (c := LockSmpEvent.xchg i) trivial ?_ (.nil _)), h₁, fun j => ?_⟩
      · rw [LockSmp.step, hmasked₀, ht₀]
        exact if_pos hfree
      · show (Function.update (Function.update s.cpus i _) i _ j).frames = _
        rw [Function.update_idem]
        exact hframes _ ((congrArg (fun c => c.frames) hcpu).trans hfs) j

/-- The calls that have started come to their ends. -/
theorem Refines.drain [Finite κ] (h : s.Refines rank n M x) (hn : ∀ l, rank l < n)
    (hM : M < 2 ^ 64) : ∃ ds s' x', Run LockSmp.step Finishes s ds s' ∧ s'.Refines rank n M x' ∧
      ∀ i, (s'.cpus i).todo = [] ∧ (s'.cpus i).frames = (s.cpus i).frames := by
  obtain ⟨is, x', hrun, -, hend⟩ := h.inv.drain
  obtain ⟨ds, s', hrun', h', hframes⟩ : ∃ ds s', Run LockSmp.step Finishes s ds s' ∧
      s'.Refines rank n M x' ∧ ∀ j, (s'.cpus j).frames = (s.cpus j).frames := by
    refine Run.simulate_runs (R := fun x (s' : LockSmp κ ι) => s'.Refines rank n M x ∧
      ∀ j, (s'.cpus j).frames = (s.cpus j).frames) hrun ?_ ⟨h, fun _ => rfl⟩
    intro x s₁ i x₁ hx _ hact
    obtain ⟨ds, s₂, hrun₂, h₂, hframes₂⟩ := hx.1.act hn hM hact
    exact ⟨ds, s₂, hrun₂, h₂, fun j => (hframes₂ j).trans (hx.2 j)⟩
  exact ⟨ds, s', x', hrun', h', fun i => ⟨(h'.todo i).symm.trans (hend i).1, hframes i⟩⟩

/-- And so does the code that was interrupted. -/
theorem Refines.finish [Finite κ] (h : s.Refines rank n M x) (hn : ∀ l, rank l < n)
    (hM : M < 2 ^ 64) : ∃ ds s' x', Run LockSmp.step Finishes s ds s' ∧ s'.Refines rank n M x' ∧
      ∀ i, (s'.cpus i).todo = [] ∧ (s'.cpus i).frames = [] := by
  have := Fintype.ofFinite κ
  -- by induction on the number of handlers
  induction hk : ∑ i, (s.cpus i).frames.length using Nat.strong_induction_on generalizing s x with
  | _ k ih =>
    obtain ⟨ds, s₁, x₁, hrun, h₁, hend⟩ := h.drain hn hM
    by_cases hdone : ∀ i, (s₁.cpus i).frames = []
    · exact ⟨ds, s₁, x₁, hrun, h₁, fun i => ⟨(hend i).1, hdone i⟩⟩
    · obtain ⟨i, hi⟩ := not_forall.mp hdone
      obtain ⟨f, fs, hfs⟩ := List.exists_cons_of_ne_nil hi
      obtain ⟨x₂, h₂⟩ := h₁.iretq (hend i).1 hfs
      have hs₂ : s₁.step (.iretq i) =
          some (s₁.set i { s₁.cpus i with toLockCode := f, frames := fs }) := by
        rw [LockSmp.step, (hend i).1, hfs]
      have hlt : ∑ j, ((s₁.set i { s₁.cpus i with
          toLockCode := f, frames := fs }).cpus j).frames.length < k := by
        rw [← hk]
        refine Finset.sum_lt_sum (fun j _ => ?_) ⟨i, Finset.mem_univ i, ?_⟩
        · show (Function.update s₁.cpus i _ j).frames.length ≤ _
          rw [← (hend j).2]
          by_cases hj : j = i
          · rw [hj, Function.update_self, hfs]
            exact Nat.le_succ _
          · rw [Function.update_of_ne hj]
        · show (Function.update s₁.cpus i _ i).frames.length < _
          rw [← (hend i).2, Function.update_self, hfs]
          exact Nat.lt_succ_self _
      obtain ⟨ds', s', x', hrun', h', hend'⟩ := ih _ hlt h₂ rfl
      exact ⟨ds ++ .iretq i :: ds', s', x', hrun.append (.cons trivial hs₂ hrun'), h', hend'⟩

/-- Every step of a run needs room for one more handler that was interrupted in `pushcli`. -/
theorem Refines.run {es : List (LockSmpEvent κ ι)} (h : s.Refines rank n M x)
    (hn : ∀ l, rank l < n) (hM : M + es.length < 2 ^ 64) (hwork : ∀ t, work t → Ranked rank [] t)
    (hr : Run LockSmp.step (Works work) s es s') : ∃ x', s'.Refines rank n (M + es.length) x' := by
  induction hr generalizing M x with
  | nil => exact ⟨x, h⟩
  | @cons s s₁ s' e es hok hs _ ih =>
    rw [List.length_cons] at hM ⊢
    obtain ⟨x₁, h₁⟩ := h.step hn (by omega) hwork hok hs
    obtain ⟨x', h'⟩ := ih h₁ (by omega)
    exact ⟨x', h'.mono (by omega)⟩

/-- **No deadlock.** If all that is started keeps to the ranks, and what was interrupted in
`pushcli` goes on where it is counted, no CPU can be interrupted while it has a lock or waits for
one, no two have the same one, and whatever was interrupted, preempted and resumed, all CPUs can
come to the end of all that they have started, with every lock free. -/
theorem no_deadlock [Finite κ] {es : List (LockSmpEvent κ ι)} (hn : ∀ l, rank l < n)
    (hmax : n + 2 + es.length < 2 ^ 64) (hwork : ∀ t, work t → Ranked rank [] t)
    (hr : Run LockSmp.step (Works work) boot es s) :
    (∀ i, (s.cpus i).held ≠ [] ∨ (s.cpus i).stage = .masked → (s.cpus i).flag = false) ∧
      (∀ i j l, l ∈ (s.cpus i).held → l ∈ (s.cpus j).held → i = j) ∧
      ∃ ds s', Run LockSmp.step Finishes s ds s' ∧ (∀ l, s'.locked l = false) ∧
        ∀ i, (s'.cpus i).todo = [] ∧ (s'.cpus i).frames = [] ∧ (s'.cpus i).held = [] := by
  have hidle (i : κ) : ((boot : LockSmp κ ι).cpus i).Fit rank n (n + 2) i := by
    refine .of_codes rfl (fun f hf => ?_) (Nat.zero_le 1) ?_
    · rw [List.mem_singleton.mp hf]
      exact LockCode.stopped_of_outside rfl rfl
    · show 1 + n + 1 ≤ n + 2
      omega
  have hboot : (boot : LockSmp κ ι).Refines rank n (n + 2)
      ⟨fun _ => none, fun _ => [], fun _ => []⟩ :=
    ⟨⟨fun _ => rfl, fun _ => .nil, fun _ _ => ⟨nofun, nofun⟩⟩, fun _ => rfl, fun _ => rfl,
      fun _ => rfl, hidle, nofun⟩
  obtain ⟨x, h⟩ := hboot.run hn hmax hwork hr
  refine ⟨fun i => (h.fit i).deaf, fun i j l hi hj => ?_, ?_⟩
  · rw [← h.held, ← h.inv.owner] at hi hj
    exact Option.some.inj (hi.symm.trans hj)
  · obtain ⟨ds, s', x', hrun, h', hend⟩ := h.finish hn hmax
    have hheld (i : κ) : (s'.cpus i).held = [] := (h'.done (hend i).1).1
    refine ⟨ds, s', hrun, fun l => ?_, fun i => ⟨(hend i).1, (hend i).2, hheld i⟩⟩
    rw [h'.locked l, Option.isSome_eq_false_iff, Option.isNone_iff_eq_none]
    by_contra hne
    obtain ⟨i, hi⟩ := Option.ne_none_iff_exists'.mp hne
    have hl := (h'.inv.owner l i).mp hi
    rw [h'.held, hheld i] at hl
    exact List.not_mem_nil hl

end LockSmp

end GoofyOs
