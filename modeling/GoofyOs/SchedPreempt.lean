import Mathlib.Data.Set.Finite.Basic
import Mathlib.Data.Finset.Basic
import Mathlib.Logic.Function.Basic
import GoofyOs.ForMathlib.Run

/-!
# `schedule` under preemption

Any number of CPUs take timer interrupts and run `schedule` of `smp/sched.c`, which is broken up
where another CPU or a nested interrupt can get in between: the section under `scheduler.lock`, the
`release`, and the assignment of `current_task` in `go_to_task`. The run queue is a plain FIFO here,
and `preempt_count` is zero throughout.

`release` enables interrupts as soon as `cli_count` is back at zero, so an interrupt may arrive when
a target has been popped and `current_task` still names the task that was queued again. The nested
`schedule` then queues that task a second time, or abandons the target.

## Main definitions

* `Smp`, `SmpStep`, `Smp.step` — the CPUs, the run queue, and what may happen next
* `Smp.Held` — a task is queued once, or held by exactly one CPU
* `Smp.Calm` — no interrupt in the window finds a task to lose

## Main results

* `Placed.reschedule` — queueing the task of a CPU and taking another keeps tasks in one place
* `smp_held` — every task is held in a calm run, and any other interrupt can break this
-/

namespace GoofyOs

/-! ### Tasks, contexts and CPUs -/

/-- A `struct task *`: null, `&idle_task`, or any other task. -/
inductive TaskPtr
  | null
  | idle
  | task (n : ℕ)
  deriving DecidableEq

namespace TaskPtr

/-- The pointer is to a task that `_sched_task` would queue. -/
def IsTask : TaskPtr → Prop
  | task _ => True
  | _ => False

instance : DecidablePred IsTask
  | null => inferInstanceAs (Decidable False)
  | idle => inferInstanceAs (Decidable False)
  | task _ => inferInstanceAs (Decidable True)

theorem isTask_iff {t : TaskPtr} : t.IsTask ↔ ∃ n, t = task n := by
  cases t <;> simp [IsTask]

end TaskPtr

/-- Where saved registers resume: outside `schedule`, or in the window of `schedule` between the
`release` and the assignment of `current_task`, with the target that was popped. -/
inductive Context
  | outside
  | window (target : TaskPtr)
  deriving DecidableEq

/-- Where a CPU is: running code, in the interrupt entry on its way to `acquire`, or at the
`release` with the target that it popped. -/
inductive Mode
  | run (ctx : Context)
  | entered (ctx : Context)
  | popped (target : TaskPtr)
  deriving DecidableEq

/-- `struct cpu`, its interrupt flag and where it is. `suspended` lists the targets popped by the
calls of `schedule` that were interrupted in their window and lie below on the stack. -/
structure Cpu where
  currentTask : TaskPtr
  cliCount : ℕ
  interruptFlag : Bool
  mode : Mode
  suspended : List TaskPtr
  deriving DecidableEq

namespace Cpu

def pushcli (c : Cpu) : Cpu := { c with cliCount := c.cliCount + 1, interruptFlag := false }

def popcli (c : Cpu) : Cpu :=
  { c with
    cliCount := c.cliCount - 1
    interruptFlag := if c.cliCount - 1 = 0 then true else c.interruptFlag }

/-- The task that the running code stands for: the target in the window of `schedule`, and
`current_task` outside. -/
def front (c : Cpu) : TaskPtr :=
  match c.mode with
  | .run (.window t) | .entered (.window t) | .popped t => t
  | .run .outside | .entered .outside => c.currentTask

/-- All tasks the CPU holds. -/
def holds (c : Cpu) : List TaskPtr := c.front :: c.suspended

end Cpu

/-- The CPUs, the run queue with its lock, the registers saved in each task, and the tasks that
were given to `sched_task`. -/
structure Smp (ι : Type*) where
  cpus : ι → Cpu
  queue : List ℕ
  locked : Bool
  regs : TaskPtr → Context
  submitted : List ℕ

/-- What may happen next. -/
inductive SmpStep (ι : Type*)
  | schedTask (n : ℕ)
  | timer (c : ι)
  | lockedSection (c : ι)
  | release (c : ι)
  | goToTask (c : ι)
  deriving DecidableEq

namespace Smp

/-- `save_task`. -/
def saveTask (regs : TaskPtr → Context) (current : TaskPtr) (ctx : Context) : TaskPtr → Context :=
  if current = .null then regs else Function.update regs current ctx

theorem saveTask_apply (regs : TaskPtr → Context) (current : TaskPtr) (ctx : Context)
    (t : TaskPtr) :
    saveTask regs current ctx t = if current = t ∧ current ≠ .null then ctx else regs t := by
  unfold saveTask
  by_cases hnull : current = .null
  · simp [hnull]
  · by_cases ht : current = t
    · subst ht
      simp [hnull]
    · simp [hnull, ht, Ne.symm ht]

/-- `_sched_task` on a FIFO. -/
def _schedTask (queue : List ℕ) : TaskPtr → List ℕ
  | .task n => queue ++ [n]
  | _ => queue

/-- `pop_task` on a FIFO. -/
def popTask : List ℕ → TaskPtr × List ℕ
  | [] => (.idle, [])
  | n :: queue => (.task n, queue)

/-- Entering a nested `schedule` leaves the target of the interrupted one behind. -/
def suspend (suspended : List TaskPtr) : Context → List TaskPtr
  | .outside => suspended
  | .window t => t :: suspended

theorem popTask_ne_null (queue : List ℕ) : (popTask queue).1 ≠ .null := by
  cases queue <;> simp [popTask]

variable {ι : Type*} [DecidableEq ι]

/-- The CPUs at boot, about to call `go_to_task(&idle_task)` with interrupts disabled. The boot code
leaves 0 in `cli_count` on the first CPU and 1 on the others. -/
def boot (cli : ι → ℕ) : Smp ι where
  cpus c := ⟨.null, cli c, false, .run (.window .idle), []⟩
  queue := []
  locked := false
  regs _ := .outside
  submitted := []

/-- One step, if it can be taken. `acquire` waits for the lock, so `sched_task` and the locked
section of `schedule` need it free. -/
def step (s : Smp ι) : SmpStep ι → Option (Smp ι)
  | .schedTask n =>
    if s.locked then none
    else some
      { s with queue := _schedTask s.queue (.task n), submitted := n :: s.submitted }
  | .timer c =>
    match (s.cpus c).mode, (s.cpus c).interruptFlag with
    | .run ctx, true =>
      let cpu := { s.cpus c with interruptFlag := false, mode := .entered ctx }
      some { s with cpus := Function.update s.cpus c cpu }
    | _, _ => none
  | .lockedSection c =>
    match (s.cpus c).mode, s.locked with
    | .entered ctx, false =>
      let current := (s.cpus c).currentTask
      let target := popTask (_schedTask s.queue current)
      let cpu :=
        { (s.cpus c).pushcli with
          mode := .popped target.1
          suspended := suspend (s.cpus c).suspended ctx }
      some
        { s with
          cpus := Function.update s.cpus c cpu
          queue := target.2
          locked := true
          regs := saveTask s.regs current ctx }
    | _, _ => none
  | .release c =>
    match (s.cpus c).mode with
    | .popped t =>
      let cpu := { (s.cpus c).popcli with mode := .run (.window t) }
      some { s with cpus := Function.update s.cpus c cpu, locked := false }
    | _ => none
  | .goToTask c =>
    match (s.cpus c).mode with
    | .run (.window t) =>
      -- the registers restored by `return_to_ctx` have interrupts enabled
      let cpu :=
        { s.cpus c with
          currentTask := t
          interruptFlag := true
          mode := .run (s.regs t)
          suspended := [] }
      some { s with cpus := Function.update s.cpus c cpu }
    | _ => none

/-- A task is queued once and on no CPU, or not queued and held once, by a single CPU. -/
def Held (s : Smp ι) (n : ℕ) : Prop :=
  (s.queue.count n = 1 ∧ ∀ c, .task n ∉ (s.cpus c).holds) ∨
    n ∉ s.queue ∧ ∃ c, (s.cpus c).holds.count (.task n) = 1 ∧
      ∀ c', c' ≠ c → .task n ∉ (s.cpus c').holds

/-- Every task is submitted once. -/
def Once (s : Smp ι) : SmpStep ι → Prop
  | .schedTask n => n ∉ s.submitted
  | _ => True

/-- There is nothing to lose in an interrupt of the CPU: outside `schedule`, or in its window with
the idle task as the target and no other task in `current_task`. -/
def CalmAt (cpu : Cpu) : Prop :=
  match cpu.mode with
  | .run (.window t) => t = .idle ∧ ¬ cpu.currentTask.IsTask
  | _ => True

/-- Tasks are submitted once, and no interrupt in the window of `schedule` finds a task, as the
target or in `current_task`. -/
def Calm (s : Smp ι) : SmpStep ι → Prop
  | .schedTask n => n ∉ s.submitted
  | .timer c => CalmAt (s.cpus c)
  | _ => True

instance (s : Smp ι) (e : SmpStep ι) : Decidable (s.Once e) := by
  cases e <;> unfold Once <;> infer_instance

instance (cpu : Cpu) : Decidable (CalmAt cpu) := by
  unfold CalmAt
  split <;> infer_instance

instance (s : Smp ι) (e : SmpStep ι) : Decidable (s.Calm e) := by
  cases e <;> unfold Calm <;> infer_instance

/-! ### Tasks in one place -/

/-- Each submitted task is in one place: once in the queue, or in front of one CPU. -/
structure Placed (queue : List ℕ) (front : ι → TaskPtr) (submitted : List ℕ) : Prop where
  nodup : queue.Nodup
  free : ∀ n ∈ queue, ∀ c, front c ≠ .task n
  single : ∀ n c c', front c = .task n → front c' = .task n → c = c'
  mem_iff : ∀ n, n ∈ submitted ↔ n ∈ queue ∨ ∃ c, front c = .task n

namespace Placed

variable {queue submitted : List ℕ} {front : ι → TaskPtr} {n : ℕ} {c : ι}

omit [DecidableEq ι] in
theorem schedTask (h : Placed queue front submitted) (hn : n ∉ submitted) :
    Placed (_schedTask queue (.task n)) front (n :: submitted) where
  nodup := by
    have hq : n ∉ queue := fun hq => hn ((h.mem_iff n).mpr (.inl hq))
    simpa [_schedTask, List.nodup_append] using ⟨h.nodup, fun a ha => ne_of_mem_of_not_mem ha hq⟩
  free m hm c hc := by
    rcases List.mem_append.mp hm with hm | hm
    · exact h.free m hm c hc
    · obtain rfl := List.mem_singleton.mp hm
      exact hn ((h.mem_iff m).mpr (.inr ⟨c, hc⟩))
  single := h.single
  mem_iff m := by
    rw [List.mem_cons, h.mem_iff m, _schedTask, List.mem_append, List.mem_singleton]
    tauto

/-- Queueing the task in front of a CPU. -/
theorem giveBack (h : Placed queue front submitted) (c : ι) :
    Placed (_schedTask queue (front c)) (Function.update front c .idle) submitted := by
  have hother : ∀ c' m, Function.update front c .idle c' = .task m → front c' = .task m ∧ c' ≠ c := by
    intro c' m hc'
    rcases eq_or_ne c' c with rfl | hne
    · simp at hc'
    · exact ⟨by simpa [hne] using hc', hne⟩
  have hsingle : ∀ m c₁ c₂, Function.update front c .idle c₁ = .task m →
      Function.update front c .idle c₂ = .task m → c₁ = c₂ :=
    fun m c₁ c₂ h₁ h₂ => h.single m c₁ c₂ (hother c₁ m h₁).1 (hother c₂ m h₂).1
  have hback : ∀ m, (∃ c', front c' = .task m) ↔
      front c = .task m ∨ ∃ c', Function.update front c .idle c' = .task m := by
    intro m
    constructor
    · rintro ⟨c', hc'⟩
      rcases eq_or_ne c' c with rfl | hne
      · exact .inl hc'
      · exact .inr ⟨c', by simpa [hne] using hc'⟩
    · rintro (hc | ⟨c', hc'⟩)
      · exact ⟨c, hc⟩
      · exact ⟨c', (hother c' m hc').1⟩
  cases hf : front c with
  | task n =>
    have hq : n ∉ queue := fun hq => h.free n hq c hf
    constructor
    · simpa [_schedTask, List.nodup_append] using
        ⟨h.nodup, fun a ha => ne_of_mem_of_not_mem ha hq⟩
    · intro m hm c' hc'
      obtain ⟨hc', hne⟩ := hother c' m hc'
      rcases List.mem_append.mp hm with hm | hm
      · exact h.free m hm c' hc'
      · obtain rfl := List.mem_singleton.mp hm
        exact hne (h.single m c' c hc' hf)
    · exact hsingle
    · intro m
      rw [h.mem_iff m, hback m, hf, _schedTask, List.mem_append, List.mem_singleton,
        TaskPtr.task.injEq, or_assoc, @eq_comm _ n m]
  | null | idle =>
    constructor
    · exact h.nodup
    · intro m hm c' hc'
      exact h.free m hm c' (hother c' m hc').1
    · exact hsingle
    · intro m
      rw [h.mem_iff m, hback m, hf]
      simp [_schedTask]

/-- Taking the oldest task to a CPU that holds none. -/
theorem take (h : Placed queue front submitted) (hc : ¬ (front c).IsTask) :
    Placed (popTask queue).2 (Function.update front c (popTask queue).1) submitted := by
  have hc : ∀ m, front c ≠ .task m := fun m hm => hc (by rw [hm]; trivial)
  have hother : ∀ t c' m, Function.update front c t c' = .task m →
      c' = c ∧ t = .task m ∨ c' ≠ c ∧ front c' = .task m := by
    intro t c' m hc'
    rcases eq_or_ne c' c with rfl | hne
    · exact .inl ⟨rfl, by simpa using hc'⟩
    · exact .inr ⟨hne, by simpa [hne] using hc'⟩
  have hkeep : ∀ t m, (∃ c', front c' = .task m) → ∃ c', Function.update front c t c' = .task m := by
    rintro t m ⟨c', hc'⟩
    have hne : c' ≠ c := by
      rintro rfl
      exact hc m hc'
    exact ⟨c', by simpa [hne] using hc'⟩
  cases queue with
  | nil =>
    constructor
    · exact h.nodup
    · simp [popTask]
    · intro m c₁ c₂ h₁ h₂
      rcases hother _ c₁ m h₁ with ⟨-, h₁⟩ | ⟨-, h₁⟩
      · cases h₁
      · rcases hother _ c₂ m h₂ with ⟨-, h₂⟩ | ⟨-, h₂⟩
        · cases h₂
        · exact h.single m c₁ c₂ h₁ h₂
    · intro m
      rw [h.mem_iff m]
      refine or_congr_right ⟨hkeep _ m, ?_⟩
      rintro ⟨c', hc'⟩
      rcases hother _ c' m hc' with ⟨-, hc'⟩ | ⟨-, hc'⟩
      · cases hc'
      · exact ⟨c', hc'⟩
  | cons n queue =>
    obtain ⟨hn, hnd⟩ := List.nodup_cons.mp h.nodup
    constructor
    · exact hnd
    · intro m hm c' hc'
      rcases hother _ c' m hc' with ⟨-, hc'⟩ | ⟨-, hc'⟩
      · cases hc'
        exact hn hm
      · exact h.free m (.tail _ hm) c' hc'
    · intro i c₁ c₂ h₁ h₂
      rcases hother _ c₁ i h₁ with ⟨e₁, ht₁⟩ | ⟨-, hf₁⟩ <;>
        rcases hother _ c₂ i h₂ with ⟨e₂, ht₂⟩ | ⟨-, hf₂⟩
      · rw [e₁, e₂]
      · cases ht₁
        exact absurd hf₂ (h.free n (.head _) c₂)
      · cases ht₂
        exact absurd hf₁ (h.free n (.head _) c₁)
      · exact h.single i c₁ c₂ hf₁ hf₂
    · intro m
      rw [h.mem_iff m, List.mem_cons]
      constructor
      · rintro ((rfl | hm) | hm)
        · exact .inr ⟨c, by simp [popTask]⟩
        · exact .inl hm
        · exact .inr (hkeep _ m hm)
      · rintro (hm | ⟨c', hc'⟩)
        · exact .inl (.inr hm)
        · rcases hother _ c' m hc' with ⟨-, hc'⟩ | ⟨-, hc'⟩
          · cases hc'
            exact .inl (.inl rfl)
          · exact .inr ⟨c', hc'⟩

/-- **The locked section keeps every task in one place**, provided the task that it queues is the
one in front of the CPU. -/
theorem reschedule (h : Placed queue front submitted) (c : ι) :
    Placed (popTask (_schedTask queue (front c))).2
      (Function.update front c (popTask (_schedTask queue (front c))).1) submitted := by
  have := (h.giveBack c).take (c := c) (by simp [TaskPtr.IsTask])
  rwa [Function.update_idem] at this

end Placed

/-! ### One step -/

/-- A CPU in a calm run: it left no task behind in an interrupted `schedule`, and entered a nested
one with nothing to lose. -/
structure Quiet (cpu : Cpu) : Prop where
  suspended : ∀ n, .task n ∉ cpu.suspended
  target : ∀ t, cpu.mode = .run (.window t) ∨ cpu.mode = .popped t → t ≠ .null
  entered : ∀ t, cpu.mode = .entered (.window t) → t = .idle ∧ ¬ cpu.currentTask.IsTask

/-- What holds between the steps of a calm run. The registers of a task never point into the window
of `schedule`, those of the idle task at most into one with the idle task as its target. -/
structure Inv (s : Smp ι) : Prop where
  placed : Placed s.queue (fun c => (s.cpus c).front) s.submitted
  quiet : ∀ c, Quiet (s.cpus c)
  current : ∀ c n, (s.cpus c).currentTask = .task n → n ∈ s.submitted
  regs : ∀ t, t ≠ .idle → s.regs t = .outside
  idle : s.regs .idle = .outside ∨ s.regs .idle = .window .idle
  holder : s.locked = true → ∃ c t, (s.cpus c).mode = .popped t

variable {s s' : Smp ι} {c : ι} {e : SmpStep ι} {cpu : Cpu}

omit [DecidableEq ι] in
theorem inv_boot (cli : ι → ℕ) : (boot cli).Inv where
  placed := ⟨by simp [boot], by simp [boot], by simp [boot, Cpu.front], by simp [boot, Cpu.front]⟩
  quiet c := ⟨by simp [boot], by simp [boot], by simp [boot]⟩
  current := by simp [boot]
  regs := by simp [boot]
  idle := .inl rfl
  holder := by simp [boot]

/-- The front of every CPU after one of them has changed. -/
theorem front_update (s : Smp ι) (c : ι) (cpu : Cpu) :
    (fun c' => (Function.update s.cpus c cpu c').front) =
      Function.update (fun c' => (s.cpus c').front) c cpu.front := by
  funext c'
  rcases eq_or_ne c' c with rfl | hne
  · simp
  · simp [hne]

/-- Exchanging a CPU for one with the same front keeps all tasks in place. -/
theorem Inv.placed_update (h : s.Inv) (hf : cpu.front = (s.cpus c).front) :
    Placed s.queue (fun c' => (Function.update s.cpus c cpu c').front) s.submitted := by
  rw [front_update, hf, Function.update_eq_self]
  exact h.placed

theorem Inv.quiet_update (h : s.Inv) (hcpu : Quiet cpu) (c' : ι) :
    Quiet (Function.update s.cpus c cpu c') := by
  rcases eq_or_ne c' c with rfl | hne
  · simpa using hcpu
  · simpa [hne] using h.quiet c'

theorem Inv.current_update (h : s.Inv)
    (hcur : ∀ n, cpu.currentTask = .task n → n ∈ s.submitted) (c' : ι) (n : ℕ)
    (hn : (Function.update s.cpus c cpu c').currentTask = .task n) : n ∈ s.submitted := by
  rcases eq_or_ne c' c with rfl | hne
  · exact hcur n (by simpa using hn)
  · exact h.current c' n (by simpa [hne] using hn)

/-- A CPU that is not at its `release` does not hold the lock. -/
theorem Inv.holder_update (h : s.Inv) (hmode : ∀ t, (s.cpus c).mode ≠ .popped t)
    (hl : s.locked = true) : ∃ c' t, (Function.update s.cpus c cpu c').mode = .popped t := by
  obtain ⟨c', t, hc'⟩ := h.holder hl
  have hne : c' ≠ c := by
    rintro rfl
    exact hmode t hc'
  exact ⟨c', t, by simpa [hne] using hc'⟩

theorem Inv.schedTask {n : ℕ} (h : s.Inv) (hn : n ∉ s.submitted)
    (hs : s.step (.schedTask n) = some s') : s'.Inv := by
  simp only [step] at hs
  split at hs
  · cases hs
  · obtain rfl := Option.some.inj hs
    exact ⟨h.placed.schedTask hn, h.quiet, fun c m hm => .tail _ (h.current c m hm), h.regs, h.idle,
      h.holder⟩

theorem Inv.timer (h : s.Inv) (hcalm : CalmAt (s.cpus c)) (hs : s.step (.timer c) = some s') :
    s'.Inv := by
  simp only [step] at hs
  split at hs
  · next ctx hmode hflag =>
    obtain rfl := Option.some.inj hs
    constructor
    · exact h.placed_update (by cases ctx <;> simp [Cpu.front, hmode])
    · refine h.quiet_update ⟨(h.quiet c).suspended, by simp, fun t ht => ?_⟩
      obtain rfl : ctx = .window t := Mode.entered.inj ht
      simpa [CalmAt, hmode] using hcalm
    · exact h.current_update (h.current c)
    · exact h.regs
    · exact h.idle
    · exact h.holder_update (by simp [hmode])
  · cases hs

/-- The locked section queues the task in front of the CPU. -/
theorem Quiet.schedTask_front {ctx : Context} (h : Quiet cpu) (hmode : cpu.mode = .entered ctx)
    (queue : List ℕ) : _schedTask queue cpu.currentTask = _schedTask queue cpu.front := by
  cases ctx with
  | outside => simp [Cpu.front, hmode]
  | window t =>
    obtain ⟨rfl, hcur⟩ := h.entered t hmode
    cases hc : cpu.currentTask with
    | task n => simp [hc, TaskPtr.IsTask] at hcur
    | null | idle => simp [Cpu.front, hmode, _schedTask]

/-- `save_task` on a quiet CPU: no registers but those of the idle task point into the window. -/
theorem Quiet.saveTask_outside {ctx : Context} {regs : TaskPtr → Context} {t : TaskPtr}
    (h : Quiet cpu) (hmode : cpu.mode = .entered ctx)
    (hregs : ∀ t, t ≠ .idle → regs t = .outside) (ht : t ≠ .idle) :
    saveTask regs cpu.currentTask ctx t = .outside := by
  rw [saveTask_apply]
  split
  · next hcur =>
    obtain ⟨rfl, hnull⟩ := hcur
    cases ctx with
    | outside => rfl
    | window w =>
      obtain ⟨-, hw⟩ := h.entered w hmode
      cases hc : cpu.currentTask with
      | null => exact absurd hc hnull
      | idle => exact absurd hc ht
      | task n => simp [hc, TaskPtr.IsTask] at hw
  · exact hregs t ht

theorem Quiet.saveTask_idle {ctx : Context} {regs : TaskPtr → Context} (h : Quiet cpu)
    (hmode : cpu.mode = .entered ctx)
    (hregs : regs .idle = .outside ∨ regs .idle = .window .idle) :
    saveTask regs cpu.currentTask ctx .idle = .outside ∨
      saveTask regs cpu.currentTask ctx .idle = .window .idle := by
  rw [saveTask_apply]
  split
  · cases ctx with
    | outside => exact .inl rfl
    | window t =>
      obtain ⟨rfl, -⟩ := h.entered t hmode
      exact .inr rfl
  · exact hregs

theorem Inv.lockedSection (h : s.Inv) (hs : s.step (.lockedSection c) = some s') : s'.Inv := by
  simp only [step] at hs
  split at hs
  · next ctx hmode hfree =>
    obtain rfl := Option.some.inj hs
    have hq := h.quiet c
    constructor
    · rw [front_update]
      have := h.placed.reschedule c
      rwa [← hq.schedTask_front hmode] at this
    · refine h.quiet_update ⟨fun n => ?_, ?_, by simp⟩
      · cases ctx with
        | outside => exact hq.suspended n
        | window t =>
          obtain ⟨rfl, -⟩ := hq.entered t hmode
          simpa [suspend] using hq.suspended n
      · simpa using popTask_ne_null _
    · exact h.current_update (h.current c)
    · exact fun t ht => hq.saveTask_outside hmode h.regs ht
    · exact hq.saveTask_idle hmode h.idle
    · exact fun _ => ⟨c, (popTask (_schedTask s.queue (s.cpus c).currentTask)).1, by simp⟩
  · cases hs

theorem Inv.release (h : s.Inv) (hs : s.step (.release c) = some s') : s'.Inv := by
  simp only [step] at hs
  split at hs
  · next t hmode =>
    obtain rfl := Option.some.inj hs
    constructor
    · exact h.placed_update (by simp [Cpu.front, hmode])
    · refine h.quiet_update ⟨(h.quiet c).suspended, fun w hw => ?_, by simp⟩
      obtain rfl : t = w := by simpa using hw
      exact (h.quiet c).target t (.inr hmode)
    · exact h.current_update (h.current c)
    · exact h.regs
    · exact h.idle
    · simp
  · cases hs

theorem Inv.goToTask (h : s.Inv) (hs : s.step (.goToTask c) = some s') : s'.Inv := by
  simp only [step] at hs
  split at hs
  · next t hmode =>
    obtain rfl := Option.some.inj hs
    constructor
    · refine h.placed_update ?_
      rw [show (s.cpus c).front = t by simp [Cpu.front, hmode]]
      by_cases ht : t = .idle
      · subst ht
        rcases h.idle with hidle | hidle <;> simp [Cpu.front, hidle]
      · simp [Cpu.front, h.regs t ht]
    · refine h.quiet_update ⟨by simp, fun w hw => ?_, by simp⟩
      have hregs : s.regs t = .window w := by simpa using hw
      by_cases ht : t = .idle
      · subst ht
        rcases h.idle with hidle | hidle <;> rw [hidle] at hregs <;> cases hregs
        simp
      · rw [h.regs t ht] at hregs
        cases hregs
    · refine h.current_update fun n hn => (h.placed.mem_iff n).mpr (.inr ⟨c, ?_⟩)
      simpa [Cpu.front, hmode] using hn
    · exact h.regs
    · exact h.idle
    · exact h.holder_update (by simp [hmode])
  · cases hs

/-- **Each calm step keeps every task in one place.** -/
theorem Inv.step (h : s.Inv) (hok : s.Calm e) (hs : s.step e = some s') : s'.Inv := by
  cases e with
  | schedTask n => exact h.schedTask hok hs
  | timer c => exact h.timer hok hs
  | lockedSection c => exact h.lockedSection hs
  | release c => exact h.release hs
  | goToTask c => exact h.goToTask hs

omit [DecidableEq ι] in
theorem Inv.mem_holds_iff {n : ℕ} (h : s.Inv) (c : ι) :
    .task n ∈ (s.cpus c).holds ↔ (s.cpus c).front = .task n := by
  rw [Cpu.holds, List.mem_cons, or_iff_left ((h.quiet c).suspended n), eq_comm]

omit [DecidableEq ι] in
theorem Inv.held {n : ℕ} (h : s.Inv) (hn : n ∈ s.submitted) : s.Held n := by
  by_cases hq : n ∈ s.queue
  · refine .inl ⟨List.count_eq_one_of_mem h.placed.nodup hq, fun c => ?_⟩
    rw [h.mem_holds_iff]
    exact h.placed.free n hq c
  · obtain ⟨c, hc⟩ := ((h.placed.mem_iff n).mp hn).resolve_left hq
    refine .inr ⟨hq, c, ?_, fun c' hne hc' => ?_⟩
    · rw [Cpu.holds, List.count_cons, List.count_eq_zero.mpr ((h.quiet c).suspended n)]
      simp [show (s.cpus c).front = .task n from hc]
    · exact hne (h.placed.single n c' c ((h.mem_holds_iff c').mp hc') hc)

theorem Inv.run {es : List (SmpStep ι)} (hr : Run Smp.step Calm s es s') (h : s.Inv) : s'.Inv :=
  hr.invariant (fun _ _ _ h hok hs => h.step hok hs) h

/-! ### An interrupt that is not calm -/

theorem step_schedTask {n : ℕ} (hl : s.locked = false) :
    s.step (.schedTask n) = some
      { s with queue := _schedTask s.queue (.task n), submitted := n :: s.submitted } := by
  simp [Smp.step, hl]

theorem step_lockedSection {ctx : Context} (hmode : (s.cpus c).mode = .entered ctx)
    (hl : s.locked = false) :
    s.step (.lockedSection c) = some
      { s with
        cpus := Function.update s.cpus c
          { (s.cpus c).pushcli with
            mode := .popped (popTask (_schedTask s.queue (s.cpus c).currentTask)).1
            suspended := suspend (s.cpus c).suspended ctx }
        queue := (popTask (_schedTask s.queue (s.cpus c).currentTask)).2
        locked := true
        regs := saveTask s.regs (s.cpus c).currentTask ctx } := by
  simp [Smp.step, hmode, hl]

theorem step_release {t : TaskPtr} (hmode : (s.cpus c).mode = .popped t) :
    s.step (.release c) = some
      { s with
        cpus := Function.update s.cpus c { (s.cpus c).popcli with mode := .run (.window t) }
        locked := false } := by
  simp [Smp.step, hmode]

theorem step_goToTask {t : TaskPtr} (hmode : (s.cpus c).mode = .run (.window t)) :
    s.step (.goToTask c) = some
      { s with
        cpus := Function.update s.cpus c
          { s.cpus c with
            currentTask := t
            interruptFlag := true
            mode := .run (s.regs t)
            suspended := [] } } := by
  simp [Smp.step, hmode]

/-- Whoever has the lock can release it, and that changes no place of a task. -/
theorem exists_unlocked (s : Smp ι) (h : s.locked = true → ∃ c t, (s.cpus c).mode = .popped t) :
    ∃ es s', Run Smp.step Once s es s' ∧ s'.locked = false ∧ s'.queue = s.queue ∧
      s'.regs = s.regs ∧ s'.submitted = s.submitted ∧
      (∀ c, (s'.cpus c).holds = (s.cpus c).holds) ∧
      ∀ c ctx, (s.cpus c).mode = .entered ctx → s'.cpus c = s.cpus c := by
  cases hl : s.locked with
  | false => exact ⟨[], s, .nil s, hl, rfl, rfl, rfl, fun _ => rfl, fun _ _ _ => rfl⟩
  | true =>
    obtain ⟨c, t, hmode⟩ := h hl
    refine ⟨[.release c], _, .cons trivial (step_release hmode) (.nil _), rfl, rfl, rfl, rfl,
      fun c' => ?_, fun c' ctx hc' => ?_⟩
    · rcases eq_or_ne c' c with rfl | hne
      · simp [Cpu.holds, Cpu.front, hmode, Cpu.popcli]
      · simp [hne]
    · have hne : c' ≠ c := by
        rintro rfl
        simp [hmode] at hc'
      simp [hne]

/-- A task is queued again while it is still in the queue or with a CPU. -/
theorem exists_duplicate {t : TaskPtr} {n u : ℕ} (hl : s.locked = false)
    (hmode : (s.cpus c).mode = .entered (.window t)) (hcur : (s.cpus c).currentTask = .task n)
    (hu : u ∉ s.submitted) (hplace : n ∈ s.queue ∨ ∃ c', .task n ∈ (s.cpus c').holds) :
    ∃ s', Run Smp.step Once s [.schedTask u, .lockedSection c] s' ∧
      s'.submitted = u :: s.submitted ∧ ¬ s'.Held n := by
  obtain ⟨x, r, hxr⟩ := List.exists_cons_of_ne_nil (l := s.queue ++ [u]) (by simp)
  refine ⟨_, .cons hu (step_schedTask hl) (.cons trivial (step_lockedSection hmode hl) (.nil _)),
    rfl, ?_⟩
  have hq : _schedTask (_schedTask s.queue (.task u)) (s.cpus c).currentTask = x :: (r ++ [n]) := by
    rw [hcur, _schedTask, _schedTask, hxr, List.cons_append]
  simp only [hq, popTask]
  rintro (⟨hcount, hno⟩ | ⟨hnot, -⟩)
  · have hnr : n ∉ r := by
      have : r.count n = 0 := by simpa using hcount
      exact List.count_eq_zero.mp this
    rcases hplace with hn | ⟨c', hc'⟩
    · have hx : n = x := by
        have : n ∈ x :: r := hxr ▸ List.mem_append_left _ hn
        exact (List.mem_cons.mp this).resolve_right hnr
      exact hno c (by simp [Cpu.holds, Cpu.front, hx])
    · refine hno c' ?_
      rcases eq_or_ne c' c with rfl | hne
      · have : .task n = t ∨ .task n ∈ (s.cpus c').suspended := by
          simpa [Cpu.holds, Cpu.front, hmode] using hc'
        simp [Cpu.holds, suspend, this]
      · simpa [hne] using hc'
  · exact hnot (by simp)

/-- `release` and `go_to_task` bring a CPU to the target that it popped. -/
theorem exists_goToTask {x : ℕ} (hmode : (s.cpus c).mode = .popped (.task x))
    (hregs : s.regs (.task x) = .outside) :
    ∃ s', Run Smp.step Once s [.release c, .goToTask c] s' ∧ s'.queue = s.queue ∧
      s'.submitted = s.submitted ∧ (s'.cpus c).holds = [.task x] ∧
      ∀ c', c' ≠ c → s'.cpus c' = s.cpus c' := by
  have h₁ := step_release hmode
  have h₂ := step_goToTask (c := c) (t := .task x) (s := { s with
    cpus := Function.update s.cpus c { (s.cpus c).popcli with mode := .run (.window (.task x)) }
    locked := false }) (by simp)
  refine ⟨_, .cons trivial h₁ (.cons trivial h₂ (.nil _)), rfl, rfl, ?_, fun c' hne => ?_⟩
  · simp [Cpu.holds, Cpu.front, hregs]
  · simp [hne]

/-- The target of the interrupted `schedule` is left behind when the nested one goes to another
task. -/
theorem exists_abandoned {n u : ℕ} (hl : s.locked = false)
    (hmode : (s.cpus c).mode = .entered (.window (.task n)))
    (hcur : ¬ (s.cpus c).currentTask.IsTask) (hu : u ∉ s.submitted) (hun : u ≠ n)
    (hq : n ∉ s.queue) (hc : ∀ c', c' ≠ c → .task n ∉ (s.cpus c').holds)
    (hregs : ∀ m, s.regs (.task m) = .outside) :
    ∃ s', Run Smp.step Once s [.schedTask u, .lockedSection c, .release c, .goToTask c] s' ∧
      s'.submitted = u :: s.submitted ∧ ¬ s'.Held n := by
  obtain ⟨x, r, hxr⟩ := List.exists_cons_of_ne_nil (l := s.queue ++ [u]) (by simp)
  have hcur' : ∀ m, (s.cpus c).currentTask ≠ .task m := fun m hm => hcur (by rw [hm]; trivial)
  have hqueue : _schedTask (_schedTask s.queue (.task u)) (s.cpus c).currentTask = x :: r := by
    cases h : (s.cpus c).currentTask with
    | task m => exact absurd h (hcur' m)
    | null | idle => exact hxr
  have hsaved : saveTask s.regs (s.cpus c).currentTask (.window (.task n)) (.task x) = .outside := by
    rw [saveTask_apply, if_neg fun h => hcur' x h.1]
    exact hregs x
  have hmem : ∀ m ∈ x :: r, m ≠ n := by
    rw [← hxr]
    rintro m hm rfl
    rcases List.mem_append.mp hm with hm | hm
    · exact hq hm
    · exact hun (List.mem_singleton.mp hm).symm
  have h₁ := step_schedTask (n := u) hl
  have h₂ := step_lockedSection (s := { s with
    queue := _schedTask s.queue (.task u), submitted := u :: s.submitted }) hmode hl
  simp only [hqueue, popTask] at h₂
  obtain ⟨s', hrun, hqueue', hsub', hholds, hother⟩ := exists_goToTask (c := c) (x := x) (s := { s with
    cpus := Function.update s.cpus c
      { (s.cpus c).pushcli with
        mode := .popped (.task x)
        suspended := suspend (s.cpus c).suspended (.window (.task n)) }
    queue := r
    locked := true
    regs := saveTask s.regs (s.cpus c).currentTask (.window (.task n))
    submitted := u :: s.submitted }) (by simp) hsaved
  refine ⟨s', .cons hu h₁ (.cons trivial h₂ hrun), hsub', ?_⟩
  rintro (⟨hcount, -⟩ | ⟨-, c', hc', -⟩)
  · have hn : n ∈ s'.queue := List.count_pos_iff.mp (by omega)
    rw [hqueue'] at hn
    exact hmem n (.tail _ hn) rfl
  · have hn : .task n ∈ (s'.cpus c').holds := List.count_pos_iff.mp (by omega)
    rcases eq_or_ne c' c with rfl | hne
    · rw [hholds, List.mem_singleton, TaskPtr.task.injEq] at hn
      exact hmem x (.head _) hn.symm
    · rw [hother c' hne] at hn
      exact hc c' hne (by simpa [hne] using hn)

/-- **After any other interrupt a task can be lost or duplicated.** -/
theorem Inv.exists_not_held (h : s.Inv) (hs : s.step (.timer c) = some s')
    (hcalm : ¬ s.Calm (.timer c)) :
    ∃ es s'', Run Smp.step Once s' es s'' ∧ ∃ n ∈ s''.submitted, ¬ s''.Held n := by
  simp only [Smp.step] at hs
  split at hs
  · next ctx hmode hflag =>
    obtain ⟨t, rfl⟩ : ∃ t, ctx = .window t := by
      cases ctx with
      | outside => simp [Calm, CalmAt, hmode] at hcalm
      | window t => exact ⟨t, rfl⟩
    obtain rfl := Option.some.inj hs
    obtain ⟨es, s₂, hrun, hl, hqueue, hregs, hsub, hholds, hcpu⟩ := exists_unlocked
      { s with
        cpus := Function.update s.cpus c
          { s.cpus c with interruptFlag := false, mode := .entered (.window t) } }
      (h.holder_update (by simp [hmode]))
    have hc := hcpu c (.window t) (by simp)
    have hholds' : ∀ c', (s₂.cpus c').holds = (s.cpus c').holds := by
      intro c'
      rw [hholds c']
      rcases eq_or_ne c' c with rfl | hne
      · simp [Cpu.holds, Cpu.front, hmode]
      · simp [hne]
    obtain ⟨u, hu⟩ := Infinite.exists_notMem_finset s.submitted.toFinset
    rw [List.mem_toFinset] at hu
    by_cases hcur : (s.cpus c).currentTask.IsTask
    · obtain ⟨n, hcn⟩ := TaskPtr.isTask_iff.mp hcur
      have hn : n ∈ s.submitted := h.current c n hcn
      obtain ⟨s₃, hrun', hsub', hnot⟩ := exists_duplicate (c := c) (t := t) (n := n) (u := u) hl
        (by simp [hc]) (by simp [hc, hcn]) (hsub ▸ hu) (by
          rw [hqueue]
          refine ((h.placed.mem_iff n).mp hn).imp_right ?_
          rintro ⟨c', hc'⟩
          refine ⟨c', ?_⟩
          rw [hholds' c']
          exact (h.mem_holds_iff c').mpr hc')
      refine ⟨_, s₃, hrun.append hrun', n, ?_, hnot⟩
      rw [hsub', hsub]
      exact .tail _ hn
    · have hidle : t ≠ .idle := fun ht => hcalm (by simp [Calm, CalmAt, hmode, ht, hcur])
      have hfront : (s.cpus c).front = t := by simp [Cpu.front, hmode]
      cases t with
      | null => exact absurd rfl ((h.quiet c).target _ (.inl hmode))
      | idle => exact absurd rfl hidle
      | task n =>
        have hn : n ∈ s.submitted := (h.placed.mem_iff n).mpr (.inr ⟨c, hfront⟩)
        obtain ⟨s₃, hrun', hsub', hnot⟩ := exists_abandoned (c := c) (n := n) (u := u) hl
          (by simp [hc]) (by simpa [hc] using hcur) (hsub ▸ hu) (fun hun => hu (hun ▸ hn))
          (fun hq => h.placed.free n (hqueue ▸ hq) c hfront)
          (fun c' hne hc' => hne (h.placed.single n c' c
            ((h.mem_holds_iff c').mp (hholds' c' ▸ hc')) hfront))
          (fun m => hregs ▸ h.regs _ (by simp))
        refine ⟨_, s₃, hrun.append hrun', n, ?_, hnot⟩
        rw [hsub', hsub]
        exact .tail _ hn
  · cases hs

end Smp

/-! ### Whole runs -/

/-- **No task is lost or duplicated under preemption, as long as no interrupt finds one in the window
of `schedule`**: neither as the popped target nor still in `current_task`. After an interrupt that
does, some continuation loses or duplicates a task. -/
theorem smp_held {ι : Type*} [DecidableEq ι] {cli : ι → ℕ} {es : List (SmpStep ι)} {s : Smp ι}
    (hr : Run Smp.step Smp.Calm (.boot cli) es s) :
    (∀ n ∈ s.submitted, s.Held n) ∧
      ∀ c s', s.step (.timer c) = some s' → ¬ s.Calm (.timer c) →
        ∃ fs t, Run Smp.step Smp.Once s' fs t ∧ ∃ n ∈ t.submitted, ¬ t.Held n := by
  have h : s.Inv := (Smp.inv_boot cli).run hr
  exact ⟨fun n hn => h.held hn, fun c s' hs hcalm => h.exists_not_held hs hcalm⟩

/-- Two CPUs: the task that was submitted runs on the second one. -/
theorem smp_held_two : ∃ s : Smp Bool, Run Smp.step Smp.Calm (.boot fun c => if c then 1 else 0)
    [.goToTask false, .goToTask true, .schedTask 1, .timer true, .lockedSection true, .release true,
      .goToTask true] s ∧ s.Held 1 := by
  have h : (Run.check Smp.step Smp.Calm (.boot fun c : Bool => if c then 1 else 0)
      [.goToTask false, .goToTask true, .schedTask 1, .timer true, .lockedSection true,
        .release true, .goToTask true]).map (fun s => s.submitted) = some [1] := by
    decide
  obtain ⟨s, hs, hsub⟩ := Option.map_eq_some_iff.mp h
  have hr := Run.of_check hs
  exact ⟨s, hr, (smp_held hr).1 1 (by simp [hsub])⟩

/-- One CPU, two tasks: the interrupt comes after `release` has enabled interrupts and before
`go_to_task` has recorded task 2, and the nested `schedule` queues task 1 a second time. -/
theorem not_smp_held :
    ¬ ∀ (ι : Type) [DecidableEq ι] (cli : ι → ℕ) (es : List (SmpStep ι)) (s : Smp ι),
      Run Smp.step Smp.Once (.boot cli) es s → ∀ n ∈ s.submitted, s.Held n := by
  intro h
  have hrun : (Run.check Smp.step Smp.Once (.boot fun _ : Unit => 0)
      [.goToTask (), .schedTask 1, .schedTask 2, .timer (), .lockedSection (), .release (),
        .goToTask (), .timer (), .lockedSection (), .release (), .timer (),
        .lockedSection ()]).map (fun s => (s.queue, s.submitted, (s.cpus ()).holds)) =
      some ([1], [2, 1], [.task 1, .task 2]) := by
    decide
  obtain ⟨s, hs, hval⟩ := Option.map_eq_some_iff.mp hrun
  simp only [Prod.mk.injEq] at hval
  obtain ⟨hqueue, hsub, hholds⟩ := hval
  rcases h Unit (fun _ => 0) _ s (Run.of_check hs) 1 (by simp [hsub]) with ⟨-, hno⟩ | ⟨hno, -⟩
  · exact hno () (by simp [hholds])
  · exact hno (by simp [hqueue])

end GoofyOs
