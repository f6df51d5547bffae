import GoofyOs.ForMathlib.RunSim
import GoofyOs.InterruptFrame
import GoofyOs.MemcpyOverlap
import GoofyOs.Sched

/-!
# Switching between tasks

A timer interrupt, or the `int $32` of a task that yields, ends in `schedule`: the interrupted
registers are copied from the stack into the `struct registers` of the task, the task is queued, the
next one is taken from the queue, and `return_to_ctx` loads its registers.

Here all of this happens on one processor and its memory. What it is for is said by a machine that
has registers for each task and never copies any. There an interrupt does nothing but choose who
runs next, and make the bytes below the interrupted stack pointer undefined.

The interrupt gate masks interrupts, but the `release` in `schedule` executes `sti` if `cli_count`
is zero again, and then there is a window: the next task was taken from the queue, `current_task`
still names the one whose registers were saved, and `return_to_ctx` was not called yet. The
theorems are about runs in which no interrupt is taken in the window. On a processor whose
`cli_count` does not get back to zero, as on all but the first one, none can be.

The handler itself uses at most `depth` bytes of stack. What `kzalloc` returns is given.

## Main definitions

* `TaskCpu`, `TaskCpu.step` — the processor with its tasks, and the code
* `Virtual`, `Virtual.step` — a machine with registers for each task
* `TaskCpu.Inv`, `TaskCpu.Refines` — what holds in every state, and the relation of the two

## Main results

* `TaskCpu.interrupt_masked` — when the window is closed
* `TaskCpu.step_refines` — one step
* `switch_refines` — **every run**: no task notices that it was interrupted
* `ktimer_starts`, `idle_starts` — where new tasks start
-/

namespace GoofyOs

/-- `KERNEL_STACK_SIZE`. -/
def kernelStackSize : BitVec 64 := 0x10000

/-- `KERNEL_CS`. -/
def kernelCs : BitVec 64 := 0x08

/-- One processor, with what its code knows about tasks: the run queue, its `current_task`,
`preempt_count` and `cli_count`, the `regs` field of each task, and `pt->cr3 - hhdm_offset`. In the
window of `schedule`, `window` is the task that it has taken from the queue; `suspended` is the one
that was taken where the saved registers of a task are those of a window. The tasks that were set up
are kept for the statements. -/
structure TaskCpu where
  cpu : Processor
  sched : Scheduler
  current : Option ℕ
  preemptCount : ℕ
  cliCount : BitVec 64
  window : Option ℕ
  suspended : ℕ → Option ℕ
  regs : ℕ → BitVec 64
  root : ℕ → BitVec 64
  tasks : List ℕ

/-- A call of `init_ktimer`: `do_ktimer` and the argument, what `kzalloc`, `new_page_table` and
`vmalloc` return, and the links of all tasks and the memory after the calls of `kzalloc`. -/
structure KtimerInit where
  task : ℕ
  regs : BitVec 64
  root : BitVec 64
  stack : BitVec 64
  doKtimer : BitVec 64
  ktimer : BitVec 64
  links : Links ℕ
  mem : Memory

/-- What happens. Running code has any effect on the registers and on `cli_count`, and writes any
bytes. In an interrupt, the C code leaves something in the registers and in its own stack frames. -/
inductive SwitchEvent
  | run (core : Core) (cliCount : BitVec 64) (writes : List (BitVec 64 × UInt8))
  | interrupt (v : ℕ) (error : BitVec 64) (code : Core) (scratch : Memory)
  | goToTask
  | initKtimer (k : KtimerInit)
  | schedTask (t : ℕ)
  | preemptDisable
  | preemptEnable

/-- Memory with bytes written to it. -/
def storeBytes {β : Type*} (f : BitVec 64 → β) (writes : List (BitVec 64 × β)) : BitVec 64 → β :=
  writes.foldl (fun f w => Function.update f w.1 w.2) f

/-- `memcpy` of a `struct registers`. -/
def copyRegisters (f : Memory) (dst src : BitVec 64) : Memory := fun a =>
  (ByteMem.memcpy dst.toNat src.toNat registersSize ⟨fun i => f (.ofNat 64 i), []⟩).byte a.toNat

/-- `kzalloc(n)` has returned `p` and filled it with zeros. What it does to the rest of the memory
is done by code that runs before. -/
structure Kzalloced (f g : Memory) (p : BitVec 64) (n : ℕ) : Prop where
  zero : ∀ b ∈ bytesAt p n, g b = 0
  rest : ∀ b, b ∉ bytesAt p n → g b = f b

/-- `kzalloc(sizeof(struct task))` has returned the task `t`, whose links are zero. -/
structure KzallocedTask (l l' : Links ℕ) (t : ℕ) : Prop where
  next : l'.next = Function.update l.next t none
  prev : l'.prev = Function.update l.prev t none

/-- The registers that `sched_init` gives the idle task, in the memory after `kzalloc`. -/
def idleRegisters (f : Memory) (regs schedIdle : BitVec 64) : Memory :=
  (f.store (regs + 136) schedIdle).store (regs + 144) kernelCs

/-- The registers that `init_ktimer` gives a new task. -/
def KtimerInit.registers (k : KtimerInit) : Memory :=
  (((k.mem.store (k.regs + 136) k.doKtimer).store (k.regs + 40) k.ktimer).store
    (k.regs + 160) (k.stack + kernelStackSize - 0x10)).store (k.regs + 144) kernelCs

/-- The bytes of the stack frames of C code that is called with a stack pointer. -/
def framesBelow (depth : ℕ) (sp : BitVec 64) : Set (BitVec 64) :=
  bytesAt (sp - .ofNat 64 depth) depth

/-- `IF` in `rflags`. -/
def interruptFlag : BitVec 64 := 0x200

namespace Processor

/-- `call isr_generic_handler`, which pushes the address of `retpoline`. -/
def callHandler (p : Processor) (retpoline : BitVec 64) : Processor := p.push retpoline

/-- C code was called: it has used the registers and its own stack frames. -/
def afterCode (p : Processor) (depth : ℕ) (gpr : Gpr → BitVec 64) (scratch : Memory) : Processor :=
  { p with
    core := { p.core with gpr := gpr }
    mem := fun b =>
      if (b - (p.core.rsp - .ofNat 64 depth)).toNat < depth then scratch b else p.mem b }

/-- C code that was called is somewhere in its stack frames. -/
def inCode (p : Processor) (rsp rip : BitVec 64) : Processor :=
  { p with core := { p.core with rsp := rsp, rip := rip } }

/-- The instruction `sti`. -/
def sti (p : Processor) : Processor :=
  { p with core := { p.core with rflags := p.core.rflags ||| interruptFlag } }

end Processor

namespace TaskCpu

variable (s : TaskCpu)

/-- The `struct registers` of a task. -/
def area (t : ℕ) : Set (BitVec 64) := bytesAt (s.regs t) registersSize

/-- `pushcli`, where interrupts are masked. -/
def pushcli : TaskCpu := { s with cliCount := s.cliCount + 1 }

/-- `popcli`. -/
def popcli : TaskCpu :=
  { s with
    cliCount := s.cliCount - 1
    cpu := if s.cliCount - 1 = 0 then s.cpu.sti else s.cpu }

/-- `save_task`. -/
def saveTask (regs : BitVec 64) : TaskCpu :=
  match s.current with
  | none => s
  | some t =>
    { s with
      cpu := { s.cpu with mem := copyRegisters s.cpu.mem (s.regs t) regs }
      suspended := Function.update s.suspended t s.window }

/-- `go_to_task`. The arguments of `return_to_ctx` are passed in `rdi` and `rsi`. -/
def goToTask (task : ℕ) : TaskCpu :=
  let gpr := Function.update (Function.update s.cpu.core.gpr .rdi (s.regs task)) .rsi (s.root task)
  { s with
    current := some task
    window := s.suspended task
    cpu := { s.cpu with core := { s.cpu.core with gpr := gpr } }.execAll returnToCtx }

/-- `schedule`, up to `go_to_task`. -/
def schedule (idle : ℕ) (regs : BitVec 64) : TaskCpu :=
  let s := s.pushcli.saveTask regs
  let r := (s.sched._schedTask idle s.current).popTask idle
  { s with sched := r.2, window := some r.1 }.popcli

/-- An interrupt, from its delivery until code runs again, or until the window of `schedule`. -/
def interrupt (idle depth v : ℕ) (error : BitVec 64) (code : Core) (scratch : Memory) :
    Option TaskCpu :=
  let p := s.cpu.interrupt v error
  let q := p.afterCode depth code.gpr scratch
  match isrGenericHandler s.preemptCount (s.cpu.handed v error) with
  | .ret => some { s with cpu := q.execAll retpoline }
  | .schedule =>
    some ({ s with cpu := q.inCode code.rsp code.rip }.schedule idle (p.core.gpr .rdi))
  | .hcf _ _ => none

/-- `init_ktimer`. -/
def initKtimer (k : KtimerInit) : TaskCpu :=
  { s with
    cpu := { s.cpu with mem := k.registers }
    sched := { s.sched with links := k.links }
    suspended := Function.update s.suspended k.task none
    regs := Function.update s.regs k.task k.regs
    root := Function.update s.root k.task k.root
    tasks := k.task :: s.tasks }

/-- `sched_init`, given what `kzalloc` and `new_page_table` return and the memory after `kzalloc`.
-/
def schedInit (idle : ℕ) (regs root schedIdle : BitVec 64) (mem : Memory) : TaskCpu :=
  { s with
    cpu := { s.cpu with mem := idleRegisters mem regs schedIdle }
    regs := Function.update s.regs idle regs
    root := Function.update s.root idle root }

/-- Code outside the window goes on. -/
def goesOn (s' : TaskCpu) : Option TaskCpu := if s.window = none then some s' else none

/-- One step. In the window, an interrupt is taken only if its flag is set, and `go_to_task` is
called. -/
def step (idle depth : ℕ) : SwitchEvent → Option TaskCpu
  | .run core cliCount writes =>
    s.goesOn { s with
      cpu := { s.cpu with core := core, mem := storeBytes s.cpu.mem writes }
      cliCount := cliCount }
  | .interrupt v error code scratch =>
    if s.window = none ∨ s.cpu.core.rflags &&& interruptFlag ≠ 0 then
      s.interrupt idle depth v error code scratch
    else none
  | .goToTask => s.window.map s.goToTask
  | .initKtimer k => s.goesOn (s.initKtimer k)
  | .schedTask t => s.goesOn { s with sched := s.sched._schedTask idle (some t) }
  | .preemptDisable => s.goesOn { s with preemptCount := s.preemptCount + 1 }
  | .preemptEnable => s.goesOn { s with preemptCount := s.preemptCount - 1 }

/-- What the rest of the kernel keeps to. Running code does not write to the registers of tasks;
where an interrupt comes, which is not in the window, there is room for it on the stack; a new task
has a `struct registers` of its own; and only tasks that were set up are queued. -/
def Ok (depth : ℕ) (s : TaskCpu) : SwitchEvent → Prop
  | .run core _ writes =>
    loadFlags core.rflags = core.rflags ∧ ∀ t ∈ s.tasks, ∀ w ∈ writes, w.1 ∉ s.area t
  | .interrupt v _ _ _ => s.window = none ∧ v < 256 ∧ ∀ t ∈ s.tasks,
    Disjoint (framesBelow (registersSize + depth) s.cpu.core.alignedSp) (s.area t)
  | .initKtimer k => k.task ∉ s.tasks ∧ k.regs.toNat + registersSize ≤ 2 ^ 64 ∧
    (∀ u ∈ s.tasks, Disjoint (bytesAt k.regs registersSize) (s.area u)) ∧
    KzallocedTask s.sched.links k.links k.task ∧ Kzalloced s.cpu.mem k.mem k.regs registersSize
  | .schedTask t => t ∈ s.tasks
  | _ => True

/-- The task that runs, or is about to. -/
def running : Option ℕ := s.window.or s.current

/-- The registers of a task: those of the processor while the task runs, and those that were saved
otherwise. -/
def ctx (t : ℕ) : Core :=
  if s.window = none ∧ s.current = some t then s.cpu.core
  else (readRegisters s.cpu.mem (s.regs t)).core

end TaskCpu

/-- A machine with registers for each task, and for the code that runs before any task does. Bytes
of its memory may be undefined. -/
structure Virtual where
  ctx : Option ℕ → Core
  current : Option ℕ
  sched : Scheduler
  preemptCount : ℕ
  mem : BitVec 64 → Option UInt8

/-- The registers that a new kernel timer starts with: interrupts are masked. -/
def KtimerInit.core (k : KtimerInit) : Core where
  gpr := Function.update (fun _ => 0) .rdi k.ktimer
  rsp := k.stack + kernelStackSize - 0x10
  rip := k.doKtimer
  rflags := 2
  cs := 8
  ss := 0

namespace Virtual

variable (m : Virtual)

open Classical in
/-- Memory with some bytes undefined. -/
noncomputable def forget (bs : Set (BitVec 64)) : BitVec 64 → Option UInt8 := fun b =>
  if b ∈ bs then none else m.mem b

/-- The next task. -/
def switch (idle : ℕ) : Virtual :=
  let r := (m.sched._schedTask idle m.current).popTask idle
  { m with sched := r.2, current := some r.1 }

/-- One step. An interrupt leaves the registers of all tasks alone, and switches at once. -/
noncomputable def step (idle depth : ℕ) : SwitchEvent → Option Virtual
  | .run core _ writes =>
    some { m with
      ctx := Function.update m.ctx m.current core
      mem := storeBytes m.mem (writes.map fun w => (w.1, some w.2)) }
  | .interrupt v _ _ _ =>
    let m' := { m with
      mem := m.forget (framesBelow (registersSize + depth) (m.ctx m.current).alignedSp) }
    if v = 0x3 then some m'
    else if v = 0x20 then some (if m.preemptCount = 0 then m'.switch idle else m')
    else none
  | .goToTask => some m
  | .initKtimer k =>
    some { m with
      ctx := Function.update m.ctx (some k.task) k.core
      sched := { m.sched with links := k.links }
      mem := m.forget (bytesAt k.regs registersSize) }
  | .schedTask t => some { m with sched := m.sched._schedTask idle (some t) }
  | .preemptDisable => some { m with preemptCount := m.preemptCount + 1 }
  | .preemptEnable => some { m with preemptCount := m.preemptCount - 1 }

end Virtual

/-! ### What is written to memory -/

section Memory

variable {f g : Memory} {a b dst src regs schedIdle : BitVec 64} {k : KtimerInit}

theorem loadFlags_loadFlags (v : BitVec 64) : loadFlags (loadFlags v) = loadFlags v := by
  have htwo : (2 : BitVec 64) &&& flagsMask = 0#64 := by decide
  rw [loadFlags, loadFlags, BitVec.and_or_distrib_right, BitVec.and_assoc, BitVec.and_self, htwo,
    BitVec.or_zero]

theorem storeBytes_of_notMem {β : Type*} {f : BitVec 64 → β} {writes : List (BitVec 64 × β)}
    (h : ∀ w ∈ writes, w.1 ≠ a) : storeBytes f writes a = f a := by
  induction writes generalizing f with
  | nil => rfl
  | cons w writes ih =>
    rw [storeBytes, List.foldl_cons, ← storeBytes, ih fun x hx => h x (List.mem_cons_of_mem _ hx)]
    exact Function.update_of_ne (h w List.mem_cons_self).symm _ _

/-- Bytes that are written to a memory with undefined bytes, and to one without. -/
theorem storeBytes_some {g : BitVec 64 → Option UInt8} (h : ∀ b x, g b = some x → f b = x)
    (writes : List (BitVec 64 × UInt8)) (b : BitVec 64) (x : UInt8)
    (hx : storeBytes g (writes.map fun w => (w.1, some w.2)) b = some x) :
    storeBytes f writes b = x := by
  induction writes generalizing f g with
  | nil => exact h b x hx
  | cons w writes ih =>
    refine ih (f := Function.update f w.1 w.2) (g := Function.update g w.1 (some w.2))
      (fun c y hy => ?_) hx
    by_cases hc : c = w.1
    · rw [hc, Function.update_self] at hy ⊢
      exact Option.some.inj hy
    · rw [Function.update_of_ne hc] at hy ⊢
      exact h c y hy

/-- The `memcpy` of a `struct registers` that is apart copies it. -/
theorem copyRegisters_eq (h : Disjoint (bytesAt src registersSize) (bytesAt dst registersSize))
    (hdst : dst.toNat + registersSize ≤ 2 ^ 64) :
    copyRegisters f dst src = f.copy dst src registersSize := by
  rw [registersSize] at h hdst
  have hapart : src.toNat + registersSize ≤ dst.toNat ∨ dst.toNat + registersSize ≤ src.toNat := by
    rw [registersSize]
    by_contra hov
    -- the higher of the two starts would be in both
    rcases Nat.le_total src.toNat dst.toNat with hle | hle
    · have hsrc : dst ∈ bytesAt src 176 := by rw [mem_bytesAt]; bv_omega
      exact Set.disjoint_left.mp h hsrc (by rw [mem_bytesAt]; bv_omega)
    · have hdst' : src ∈ bytesAt dst 176 := by rw [mem_bytesAt]; bv_omega
      exact Set.disjoint_right.mp h hdst' (by rw [mem_bytesAt]; bv_omega)
  funext b
  rw [copyRegisters, ByteMem.memcpy_byte_of_disjoint hapart, ByteMem.moved, Memory.copy]
  rw [registersSize]
  by_cases hb : (b - dst).toNat < 176
  · have haddr : BitVec.ofNat 64 (src.toNat + (b.toNat - dst.toNat)) = src + (b - dst) := by
      bv_omega
    rw [if_pos hb, if_pos (by bv_omega), ← haddr]
  · have haddr : BitVec.ofNat 64 b.toNat = b := by bv_omega
    rw [if_neg hb, if_neg (by bv_omega)]
    exact congrArg f haddr

theorem readRegisters_copy :
    readRegisters (f.copy dst src registersSize) dst = readRegisters f src := by
  have hread (i : ℕ) (hi : i < 22) : f.load (src + .ofNat 64 (8 * i)) =
      ((List.range 22).map fun i => f.load (src + .ofNat 64 (8 * i))).getD i 0 := by
    simp [hi]
  refine (readRegisters_eq fun i hi => ?_).trans (readRegisters_eq hread).symm
  rw [← hread i hi]
  exact Memory.load_copy (by rw [registersSize]; omega) (by decide)

theorem Kzalloced.load {i : ℕ} (h : Kzalloced f g regs registersSize) (hi : i < 22) :
    g.load (regs + .ofNat 64 (8 * i)) = 0 := by
  have hval : g.value (regs + .ofNat 64 (8 * i)) 8 = 0 % 256 ^ 8 :=
    Memory.value_eq fun j hj => by
      rw [h.zero _ (by rw [mem_bytesAt, registersSize]; bv_omega), Nat.zero_div]
      rfl
  rw [Memory.load, hval]
  rfl

/-- The registers of a new kernel timer, quadword by quadword. -/
theorem KtimerInit.load_registers {i : ℕ} (h : Kzalloced f k.mem k.regs registersSize)
    (hi : i < 22) : k.registers.load (k.regs + .ofNat 64 (8 * i)) =
      if 18 = i then kernelCs else if 20 = i then k.stack + kernelStackSize - 0x10
      else if 5 = i then k.ktimer else if 17 = i then k.doKtimer else 0 := by
  have hstore (g : Memory) (v : BitVec 64) (j : ℕ) (hj : j < 22) :
      (g.store (k.regs + .ofNat 64 (8 * j)) v).load (k.regs + .ofNat 64 (8 * i)) =
        if j = i then v else g.load (k.regs + .ofNat 64 (8 * i)) :=
    Memory.load_store_index (n := 22) (by decide) hj hi
  refine (hstore _ _ 18 (by omega)).trans ?_
  refine if_congr Iff.rfl rfl ((hstore _ _ 20 (by omega)).trans ?_)
  refine if_congr Iff.rfl rfl ((hstore _ _ 5 (by omega)).trans ?_)
  refine if_congr Iff.rfl rfl ((hstore _ _ 17 (by omega)).trans ?_)
  rw [h.load hi]

/-- The registers of the idle task, quadword by quadword. -/
theorem load_idleRegisters {i : ℕ} (h : Kzalloced f g regs registersSize) (hi : i < 22) :
    (idleRegisters g regs schedIdle).load (regs + .ofNat 64 (8 * i)) =
      if 18 = i then kernelCs else if 17 = i then schedIdle else 0 := by
  have hstore (g : Memory) (v : BitVec 64) (k : ℕ) (hk : k < 22) :
      (g.store (regs + .ofNat 64 (8 * k)) v).load (regs + .ofNat 64 (8 * i)) =
        if k = i then v else g.load (regs + .ofNat 64 (8 * i)) :=
    Memory.load_store_index (n := 22) (by decide) hk hi
  refine (hstore _ _ 18 (by omega)).trans ?_
  refine if_congr Iff.rfl rfl ((hstore _ _ 17 (by omega)).trans ?_)
  rw [h.load hi]

theorem KtimerInit.core_registers (h : Kzalloced f k.mem k.regs registersSize) :
    (readRegisters k.registers k.regs).core = k.core := by
  have hread (i : ℕ) (hi : i < 22) : k.registers.load (k.regs + .ofNat 64 (8 * i)) =
      ((List.range 22).map fun i => if 18 = i then kernelCs
        else if 20 = i then k.stack + kernelStackSize - 0x10
        else if 5 = i then k.ktimer else if 17 = i then k.doKtimer else 0).getD i 0 := by
    rw [KtimerInit.load_registers h hi]
    simp [hi]
  rw [readRegisters_eq hread, Registers.core, KtimerInit.core, Core.mk.injEq]
  refine ⟨?_, rfl, rfl, (by decide : loadFlags 0 = 2), (by decide : kernelCs.setWidth 16 = 8),
    (by decide : (0 : BitVec 64).setWidth 16 = 0)⟩
  funext r
  cases r <;> rfl

theorem KtimerInit.registers_of_notMem (h : Kzalloced f k.mem k.regs registersSize)
    (hb : b ∉ bytesAt k.regs registersSize) : k.registers b = f b := by
  have hstore (g : Memory) (v : BitVec 64) (j : ℕ) (hj : j < 22) :
      g.store (k.regs + .ofNat 64 (8 * j)) v b = g b :=
    Memory.store_of_notMem fun h =>
      hb (bytesAt_add_subset (by rw [registersSize]; omega) (by decide) h)
  refine (hstore _ _ 18 (by omega)).trans ((hstore _ _ 20 (by omega)).trans ?_)
  refine (hstore _ _ 5 (by omega)).trans ((hstore _ _ 17 (by omega)).trans ?_)
  exact h.rest b hb

end Memory

/-! ### The run queue holds tasks only -/

namespace Scheduler

/-- The run queue holds members of a list only. -/
structure Within (s : Scheduler) (tasks : List ℕ) : Prop where
  head : ∀ t ∈ s.head, t ∈ tasks
  tail : ∀ t ∈ s.tail, t ∈ tasks
  prev : ∀ t ∈ tasks, ∀ u ∈ s.links.prev t, u ∈ tasks

variable {s : Scheduler} {tasks : List ℕ} {idle t : ℕ}

theorem Within.newTask (h : s.Within tasks) {links : Links ℕ} (hl : KzallocedTask s.links links t) :
    ({ s with links := links } : Scheduler).Within (t :: tasks) where
  head u hu := List.mem_cons_of_mem _ (h.head u hu)
  tail u hu := List.mem_cons_of_mem _ (h.tail u hu)
  prev u hu x hx := by
    change x ∈ links.prev u at hx
    rw [hl.prev] at hx
    by_cases hut : u = t
    · rw [hut, Function.update_self] at hx
      cases hx
    · rw [Function.update_of_ne hut] at hx
      exact List.mem_cons_of_mem _ (h.prev u (List.mem_of_ne_of_mem hut hu) x hx)

/-- A field of the task that was queued, and of the one behind it, is changed. -/
theorem Within.schedTask (h : s.Within tasks) {task : Option ℕ} (ht : ∀ t ∈ task, t ∈ tasks) :
    (s._schedTask idle task).Within tasks := by
  cases task with
  | none => exact h
  | some t =>
    have htask : t ∈ tasks := ht t rfl
    have hprev (u : ℕ) (hu : u ∈ tasks) (x : ℕ)
        (hx : x ∈ Function.update s.links.prev t none u) : x ∈ tasks := by
      by_cases hut : u = t
      · rw [hut, Function.update_self] at hx
        cases hx
      · rw [Function.update_of_ne hut] at hx
        exact h.prev u hu x hx
    rw [_schedTask]
    split_ifs with hidle
    · exact h
    · cases hhead : s.head with
      | none => exact ⟨fun u hu => by rwa [← Option.some.inj hu],
          fun u hu => by rwa [← Option.some.inj hu], hprev⟩
      | some next =>
        refine ⟨fun u hu => by rwa [← Option.some.inj hu], h.tail, fun u hu x hx => ?_⟩
        change x ∈ Function.update (Function.update s.links.prev t none) next (some t) u at hx
        by_cases hun : u = next
        · rw [hun, Function.update_self] at hx
          rwa [← Option.some.inj hx]
        · rw [Function.update_of_ne hun] at hx
          exact hprev u hu x hx

/-- What is taken from the queue is a member, and so is what stays. -/
theorem Within.popTask (h : s.Within tasks) (hidle : idle ∈ tasks) :
    (s.popTask idle).1 ∈ tasks ∧ (s.popTask idle).2.Within tasks := by
  rw [Scheduler.popTask]
  cases htail : s.tail with
  | none => exact ⟨hidle, h⟩
  | some ret =>
    have hret : ret ∈ tasks := h.tail ret htail
    refine ⟨hret, h.head, h.prev ret hret, fun u hu x hx => ?_⟩
    change x ∈ Function.update s.links.prev ret none u at hx
    by_cases hur : u = ret
    · rw [hur, Function.update_self] at hx
      cases hx
    · rw [Function.update_of_ne hur] at hx
      exact h.prev u hu x hx

end Scheduler

namespace TaskCpu

/-- What holds in every state. -/
structure Inv (s : TaskCpu) (idle : ℕ) : Prop where
  idle : idle ∈ s.tasks
  current : ∀ t ∈ s.current, t ∈ s.tasks
  sched : s.sched.Within s.tasks
  apart : ∀ t ∈ s.tasks, ∀ u ∈ s.tasks, t ≠ u → Disjoint (s.area t) (s.area u)
  fits : ∀ t ∈ s.tasks, (s.regs t).toNat + registersSize ≤ 2 ^ 64
  flags : s.window = none → loadFlags s.cpu.core.rflags = s.cpu.core.rflags
  cr3 : ∀ t ∈ s.current, s.cpu.cr3 = s.root t
  window : ∀ t ∈ s.window, t ∈ s.tasks
  suspended : ∀ t ∈ s.tasks, s.suspended t = none
  masked : s.window ≠ none → s.cliCount ≠ 0 → s.cpu.core.rflags &&& interruptFlag = 0

/-- The processor does what the machine with registers for each task does. -/
structure Refines (s : TaskCpu) (m : Virtual) : Prop where
  current : m.current = s.running
  sched : m.sched = s.sched
  preemptCount : m.preemptCount = s.preemptCount
  core : s.window = none → m.ctx s.current = s.cpu.core
  ctx : ∀ t ∈ s.tasks, m.ctx (some t) = s.ctx t
  mem : ∀ b x, m.mem b = some x → s.cpu.mem b = x
  areas : ∀ t ∈ s.tasks, ∀ b ∈ s.area t, m.mem b = none

variable {s s' s'' : TaskCpu} {m : Virtual} {e : SwitchEvent} {idle depth v : ℕ} {error : BitVec 64}
  {code : Core} {scratch : Memory}

theorem goesOn_eq_some : s.goesOn s' = some s'' ↔ s.window = none ∧ s' = s'' := by
  rw [goesOn]
  split_ifs with h
  · rw [Option.some_inj, and_iff_right h]
  · exact ⟨nofun, fun hs => absurd hs.1 h⟩

theorem running_of_window (h : s.window = none) : s.running = s.current := by
  rw [running, h, Option.none_or]

theorem ctx_of_window (h : s.window = none) (t : ℕ) : s.ctx t =
    if s.current = some t then s.cpu.core else (readRegisters s.cpu.mem (s.regs t)).core := by
  simp only [ctx, h, true_and]

/-! ### One interrupt -/

section Interrupt

/-- What the handler was given is still there at the end of the C code. -/
theorem afterCode_handed (hdepth : registersSize + depth ≤ 2 ^ 64) : ∀ b ∈
    bytesAt (s.cpu.interrupt v error).core.rsp registersSize,
    ((s.cpu.interrupt v error).afterCode depth code.gpr scratch).mem b =
      (s.cpu.interrupt v error).mem b := by
  intro b hb
  refine if_neg ?_
  rw [mem_bytesAt, registersSize] at hb
  rw [registersSize] at hdepth
  bv_omega

theorem frame_subset (hdepth : registersSize + depth ≤ 2 ^ 64) (sp : BitVec 64) :
    bytesAt (sp - .ofNat 64 registersSize) registersSize ⊆
      framesBelow (registersSize + depth) sp := by
  intro b hb
  rw [framesBelow, mem_bytesAt]
  rw [mem_bytesAt, registersSize] at hb
  rw [registersSize] at hdepth ⊢
  bv_omega

variable (hv : v = 0x3 ∨ v = 0x20)

include hv

/-- The stack pointer that the handler is called with. -/
theorem interrupt_rsp_eq : (s.cpu.interrupt v error).core.rsp =
    s.cpu.core.alignedSp - .ofNat 64 registersSize := by
  have hlen : (s.cpu.core.stacked v error).length = 22 := by
    obtain rfl | rfl := hv <;> rfl
  rw [interrupt_rsp, hlen, registersSize]

/-- Up to the end of the C code, nothing is written but what is below the interrupted stack
pointer. -/
theorem afterCode_of_notMem (hdepth : registersSize + depth ≤ 2 ^ 64) {b : BitVec 64}
    (hb : b ∉ framesBelow (registersSize + depth) s.cpu.core.alignedSp) :
    ((s.cpu.interrupt v error).afterCode depth code.gpr scratch).mem b = s.cpu.mem b := by
  have hlen : (s.cpu.core.stacked v error).reverse.length = 22 := by
    obtain rfl | rfl := hv <;> rfl
  rw [framesBelow, mem_bytesAt] at hb
  have hpush : (s.cpu.interrupt v error).mem b = s.cpu.mem b := by
    rw [interrupt_mem]
    refine Memory.pushAll_of_notMem (by omega) ?_
    rw [hlen, mem_bytesAt]
    rw [registersSize] at hb hdepth
    bv_omega
  have hframes : ¬ (b - ((s.cpu.interrupt v error).core.rsp - .ofNat 64 depth)).toNat < depth := by
    rw [interrupt_rsp_eq hv]
    rw [registersSize] at hb hdepth ⊢
    bv_omega
  rw [← hpush]
  exact if_neg hframes

/-- The bytes where the registers of tasks are kept are not those of the interrupted stack. -/
theorem afterCode_area (hdepth : registersSize + depth ≤ 2 ^ 64)
    (hok : s.Ok depth (.interrupt v error code scratch)) {t : ℕ} (ht : t ∈ s.tasks) :
    ∀ b ∈ s.area t, ((s.cpu.interrupt v error).afterCode depth code.gpr scratch).mem b =
      s.cpu.mem b :=
  fun _ hb => afterCode_of_notMem hv hdepth (Set.disjoint_right.mp (hok.2.2 t ht) hb)

/-- The state in which `schedule` calls `save_task`. -/
def handling (s : TaskCpu) (depth v : ℕ) (error : BitVec 64) (code : Core) (scratch : Memory) :
    TaskCpu :=
  { s with
    cpu := ((s.cpu.interrupt v error).afterCode depth code.gpr scratch).inCode code.rsp code.rip
    cliCount := s.cliCount + 1 }

/-- **`save_task`**: after it the registers of every task are where they are kept. -/
theorem saveTask_spec (hdepth : registersSize + depth ≤ 2 ^ 64) (h : s.Inv idle)
    (hok : s.Ok depth (.interrupt v error code scratch)) :
    ∃ (f : Memory) (suspended : ℕ → Option ℕ),
      (s.handling depth v error code scratch).saveTask
          ((s.cpu.interrupt v error).core.gpr .rdi) =
        { s.handling depth v error code scratch with
          cpu := { (s.handling depth v error code scratch).cpu with mem := f }
          suspended := suspended } ∧
      (∀ t ∈ s.tasks, suspended t = none) ∧
      (∀ t ∈ s.tasks, (readRegisters f (s.regs t)).core = s.ctx t) ∧
      ∀ b, b ∉ framesBelow (registersSize + depth) s.cpu.core.alignedSp →
        (∀ t ∈ s.tasks, b ∉ s.area t) → f b = s.cpu.mem b := by
  have hfour : v ∉ [12, 21, 29, 30] := by obtain rfl | rfl := hv <;> decide
  have hwin := hok.1
  cases hcur : s.current with
  | none =>
    refine ⟨((s.cpu.interrupt v error).afterCode depth code.gpr scratch).mem, s.suspended, ?_,
      h.suspended, fun t ht => ?_, fun b hb _ => afterCode_of_notMem hv hdepth hb⟩
    · rw [saveTask, handling, hcur]
      rfl
    · rw [ctx_of_window hwin, hcur, if_neg (by simp),
        readRegisters_congr (afterCode_area hv hdepth hok ht)]
  | some c =>
    have hc : c ∈ s.tasks := h.current c hcur
    have hdisj : Disjoint (bytesAt (s.cpu.interrupt v error).core.rsp registersSize) (s.area c) := by
      rw [interrupt_rsp_eq hv]
      exact (hok.2.2 c hc).mono_left (frame_subset hdepth _)
    refine ⟨((s.cpu.interrupt v error).afterCode depth code.gpr scratch).mem.copy (s.regs c)
      (s.cpu.interrupt v error).core.rsp registersSize, Function.update s.suspended c none, ?_,
      fun t ht => ?_, fun t ht => ?_, fun b hb hareas => ?_⟩
    · rw [saveTask, handling, hcur, interrupt_rdi]
      simp only [Processor.inCode, copyRegisters_eq hdisj (h.fits c hc), hwin]
    · by_cases htc : t = c
      · rw [htc, Function.update_self]
      · rw [Function.update_of_ne htc, h.suspended t ht]
    · by_cases htc : t = c
      · -- the interrupted task: its registers were copied from the stack
        have hread : readRegisters ((s.cpu.interrupt v error).afterCode depth code.gpr scratch).mem
            (s.cpu.interrupt v error).core.rsp = s.cpu.handed v error := by
          rw [Processor.handed, interrupt_rdi]
          exact readRegisters_congr (afterCode_handed hdepth)
        rw [htc, readRegisters_copy, hread, handed_eq, if_neg hfour, core_registers (h.flags hwin),
          ctx_of_window hwin, hcur, if_pos rfl]
      · have hkept : ∀ b ∈ s.area t, (((s.cpu.interrupt v error).afterCode depth code.gpr
            scratch).mem.copy (s.regs c) (s.cpu.interrupt v error).core.rsp registersSize) b =
              s.cpu.mem b := fun b hb => by
          rw [Memory.copy_of_notMem (Set.disjoint_left.mp (h.apart t ht c hc htc) hb)]
          exact afterCode_area hv hdepth hok ht b hb
        rw [ctx_of_window hwin, hcur, if_neg (by simpa using Ne.symm htc),
          readRegisters_congr hkept]
    · rw [Memory.copy_of_notMem (hareas c hc)]
      exact afterCode_of_notMem hv hdepth hb

end Interrupt

/-- **`go_to_task`** loads the registers and the page tables of a task. -/
theorem goToTask_spec (s : TaskCpu) (task : ℕ) : s.goToTask task =
    { s with
      current := some task
      window := s.suspended task
      cpu := ⟨(readRegisters s.cpu.mem (s.regs task)).core, s.root task, s.cpu.mem⟩ } := by
  have hne : Gpr.rdi ≠ .rsi := by decide
  simp only [goToTask, returnToCtx_spec, Function.update_self, Function.update_of_ne hne]

/-! ### One step -/

theorem handed_vector (p : Processor) (v : ℕ) (error : BitVec 64) :
    (p.handed v error).vectorNumber = .ofNat 64 v := by
  rw [handed_eq]
  split <;> rfl

/-- The memory after an interrupt that wrote `f`: what is not below the interrupted stack pointer,
and not where registers of tasks are kept, is as it was. -/
def Undisturbed (s : TaskCpu) (depth : ℕ) (f : Memory) : Prop :=
  ∀ b, b ∉ framesBelow (registersSize + depth) s.cpu.core.alignedSp →
    (∀ t ∈ s.tasks, b ∉ s.area t) → f b = s.cpu.mem b

/-- An interrupt masks interrupts. -/
theorem interrupt_rflags (p : Processor) (v : ℕ) (error : BitVec 64) :
    (p.interrupt v error).core.rflags &&& interruptFlag = 0 := by
  have hclear : ~~~flagsOfGate &&& interruptFlag = 0#64 := by decide
  rw [interrupt_spec]
  show p.core.rflags &&& ~~~flagsOfGate &&& interruptFlag = 0
  rw [BitVec.and_assoc, hclear]
  exact BitVec.and_zero

/-- **What an interrupt can do**: it returns to the code that was interrupted, or comes to the
window of `schedule` with the registers of all tasks saved. -/
theorem interrupt_cases (hdepth : registersSize + depth ≤ 2 ^ 64) (h : s.Inv idle)
    (hok : s.Ok depth (.interrupt v error code scratch))
    (hs : s.interrupt idle depth v error code scratch = some s') :
    (∃ f : Memory, (v = 0x3 ∨ v = 0x20 ∧ s.preemptCount ≠ 0) ∧
      s' = { s with cpu := ⟨s.cpu.core, s.cpu.cr3, f⟩ } ∧
      (∀ t ∈ s.tasks, ∀ b ∈ s.area t, f b = s.cpu.mem b) ∧ s.Undisturbed depth f) ∨
    (∃ (f : Memory) (r : ℕ × Scheduler) (p : Processor) (cliCount : BitVec 64)
      (suspended : ℕ → Option ℕ), v = 0x20 ∧ s.preemptCount = 0 ∧
      r = (s.sched._schedTask idle s.current).popTask idle ∧
      s' = { s with
        sched := r.2
        window := some r.1
        suspended := suspended
        cliCount := cliCount
        cpu := p } ∧
      p.mem = f ∧ p.cr3 = s.cpu.cr3 ∧
      (cliCount ≠ 0 → p.core.rflags &&& interruptFlag = 0) ∧
      (∀ t ∈ s.tasks, suspended t = none) ∧
      (∀ t ∈ s.tasks, (readRegisters f (s.regs t)).core = s.ctx t) ∧ s.Undisturbed depth f) := by
  have hback (hv : v = 0x3 ∨ v = 0x20) :
      ((s.cpu.interrupt v error).afterCode depth code.gpr scratch).execAll retpoline =
        ⟨s.cpu.core, s.cpu.cr3,
          ((s.cpu.interrupt v error).afterCode depth code.gpr scratch).mem⟩ := by
    have hfour : v ∉ [12, 21, 29, 30] := by obtain rfl | rfl := hv <;> decide
    have hcr3 : ((s.cpu.interrupt v error).afterCode depth code.gpr scratch).cr3 = s.cpu.cr3 :=
      interrupt_cr3 _ _ _
    rw [resume_interrupted (q := (s.cpu.interrupt v error).afterCode depth code.gpr scratch) hfour
      (h.flags hok.1) rfl (afterCode_handed hdepth), hcr3]
  have hreturn (hv : v = 0x3 ∨ v = 0x20 ∧ s.preemptCount ≠ 0)
      (hs' : { s with cpu :=
        ((s.cpu.interrupt v error).afterCode depth code.gpr scratch).execAll retpoline } = s') :
      ∃ f : Memory, (v = 0x3 ∨ v = 0x20 ∧ s.preemptCount ≠ 0) ∧
        s' = { s with cpu := ⟨s.cpu.core, s.cpu.cr3, f⟩ } ∧
        (∀ t ∈ s.tasks, ∀ b ∈ s.area t, f b = s.cpu.mem b) ∧ s.Undisturbed depth f := by
    have hv' : v = 0x3 ∨ v = 0x20 := hv.imp_right And.left
    rw [hback hv'] at hs'
    exact ⟨_, hv, hs'.symm, fun t ht => afterCode_area hv' hdepth hok ht,
      fun b hb _ => afterCode_of_notMem hv' hdepth hb⟩
  simp only [TaskCpu.interrupt, isrGenericHandler_eq hok.2.1 (handed_vector _ _ _)] at hs
  by_cases h3 : v = 0x3
  · rw [if_pos h3] at hs
    exact .inl (hreturn (.inl h3) (Option.some.inj hs))
  by_cases h20 : v = 0x20
  · rw [if_neg h3, if_pos h20] at hs
    by_cases hcount : s.preemptCount = 0
    · rw [if_pos hcount] at hs
      obtain ⟨f, suspended, hsave, hsusp, hctx, hmem⟩ := saveTask_spec (.inr h20) hdepth h hok
      let q := ((s.cpu.interrupt v error).afterCode depth code.gpr scratch).inCode code.rsp code.rip
      have hpush : ({ s with cpu := q } : TaskCpu).pushcli =
          s.handling depth v error code scratch := rfl
      have hsched : ({ s with cpu := q } : TaskCpu).schedule idle
          ((s.cpu.interrupt v error).core.gpr .rdi) = s' := Option.some.inj hs
      rw [schedule, hpush, hsave] at hsched
      refine .inr ⟨f, _, _, _, suspended, h20, hcount, rfl, hsched.symm, ?_, ?_, fun hne => ?_,
        hsusp, hctx, hmem⟩
      · show (if _ then _ else _ : Processor).mem = f
        split_ifs <;> rfl
      · show (if _ then _ else _ : Processor).cr3 = s.cpu.cr3
        split_ifs <;> exact interrupt_cr3 _ _ _
      · show (if _ then _ else _ : Processor).core.rflags &&& interruptFlag = 0
        rw [if_neg hne]
        exact interrupt_rflags s.cpu v error
    · rw [if_neg hcount] at hs
      exact .inl (hreturn (.inr ⟨h20, hcount⟩) (Option.some.inj hs))
  · rw [if_neg h3, if_neg h20] at hs
    cases hs

/-- **When the window is closed**: `cli_count` did not get back to zero. -/
theorem interrupt_masked (h : s.Inv idle) (hwin : s.window ≠ none) (hcount : s.cliCount ≠ 0) :
    s.step idle depth (.interrupt v error code scratch) = none := by
  have hflag := h.masked hwin hcount
  rw [step, if_neg]
  rintro (hnone | hset)
  · exact hwin hnone
  · exact hset hflag

/-- The registers of tasks are kept where they were. -/
theorem Inv.update (h : s.Inv idle) {p : Processor} {sched : Scheduler} {current window : Option ℕ}
    {cliCount : BitVec 64} {suspended : ℕ → Option ℕ} (hcur : ∀ t ∈ current, t ∈ s.tasks)
    (hsched : sched.Within s.tasks) (hflags : window = none → loadFlags p.core.rflags = p.core.rflags)
    (hcr3 : ∀ t ∈ current, p.cr3 = s.root t) (hwin : ∀ t ∈ window, t ∈ s.tasks)
    (hsusp : ∀ t ∈ s.tasks, suspended t = none)
    (hmasked : window ≠ none → cliCount ≠ 0 → p.core.rflags &&& interruptFlag = 0) :
    ({ s with
      cpu := p
      sched := sched
      current := current
      cliCount := cliCount
      window := window
      suspended := suspended } : TaskCpu).Inv idle where
  idle := h.idle
  current := hcur
  sched := hsched
  apart := h.apart
  fits := h.fits
  flags := hflags
  cr3 := hcr3
  window := hwin
  suspended := hsusp
  masked := hmasked

/-- Code outside the window goes on in its page tables. -/
theorem Inv.goesOn (h : s.Inv idle) {p : Processor} {sched : Scheduler} {cliCount : BitVec 64}
    (hwin : s.window = none) (hsched : sched.Within s.tasks)
    (hflags : loadFlags p.core.rflags = p.core.rflags) (hcr3 : p.cr3 = s.cpu.cr3) :
    ({ s with cpu := p, sched := sched, cliCount := cliCount } : TaskCpu).Inv idle :=
  h.update h.current hsched (fun _ => hflags) (fun t ht => hcr3.trans (h.cr3 t ht)) h.window
    h.suspended fun hne => absurd hwin hne

/-- The next task has its registers loaded. -/
theorem Refines.load (hr : s.Refines m) {p : Processor} {t : ℕ} {suspended : Option ℕ}
    (ht : s.window = some t) (hsusp : suspended = none) (hmem : p.mem = s.cpu.mem)
    (hcore : p.core = s.ctx t) (htask : t ∈ s.tasks) :
    ({ s with cpu := p, current := some t, window := suspended } : TaskCpu).Refines m where
  current := by
    rw [hr.current, running, ht, running, hsusp]
    rfl
  sched := hr.sched
  preemptCount := hr.preemptCount
  core _ := (hr.ctx t htask).trans hcore.symm
  ctx u hu := by
    have hread : s.ctx u = (readRegisters s.cpu.mem (s.regs u)).core :=
      if_neg fun hc => absurd (ht.symm.trans hc.1) (Option.some_ne_none t)
    refine (hr.ctx u hu).trans (Eq.trans ?_ (ctx_of_window hsusp u).symm)
    show s.ctx u = if some t = some u then p.core else (readRegisters p.mem (s.regs u)).core
    split_ifs with htu
    · rw [hcore, Option.some.inj htu]
    · rw [hread, hmem]
  mem b x hx := by
    rw [hmem]
    exact hr.mem b x hx
  areas := hr.areas

/-- Memory of which some bytes are forgotten is still the memory. -/
theorem Refines.forget (hr : s.Refines m) (hwin : s.window = none) {f : Memory}
    (hf : s.Undisturbed depth f) :
    (∀ b x, m.forget (framesBelow (registersSize + depth) (m.ctx m.current).alignedSp) b = some x →
      f b = x) ∧
    ∀ t ∈ s.tasks, ∀ b ∈ s.area t,
      m.forget (framesBelow (registersSize + depth) (m.ctx m.current).alignedSp) b = none := by
  rw [hr.current, running_of_window hwin, hr.core hwin]
  constructor
  · intro b x hx
    rw [Virtual.forget] at hx
    split_ifs at hx with hb
    rw [hf b hb fun t ht hbt => by rw [hr.areas t ht b hbt] at hx; cases hx]
    exact hr.mem b x hx
  · intro t ht b hb
    rw [Virtual.forget]
    split_ifs
    · rfl
    · exact hr.areas t ht b hb

/-- **An interrupt**: the code that was interrupted goes on, now or later, with its registers. -/
theorem Refines.interrupt (hr : s.Refines m) (hdepth : registersSize + depth ≤ 2 ^ 64)
    (h : s.Inv idle) (hok : s.Ok depth (.interrupt v error code scratch))
    (hs : s.interrupt idle depth v error code scratch = some s') :
    ∃ m', m.step idle depth (.interrupt v error code scratch) = some m' ∧ s'.Refines m' ∧
      s'.Inv idle := by
  have hwin := hok.1
  have hcur := hr.current.trans (running_of_window hwin)
  rcases interrupt_cases hdepth h hok hs with ⟨f, hv, rfl, hareas, hf⟩ |
    ⟨f, r, p, cliCount, suspended, rfl, hcount, hr', rfl, rfl, hcr3, hmasked, hsusp, hctx, hf⟩
  · obtain ⟨hmem, hnone⟩ := hr.forget hwin hf
    refine ⟨{ m with
      mem := m.forget (framesBelow (registersSize + depth) (m.ctx m.current).alignedSp) }, ?_,
      ⟨hr.current, hr.sched, hr.preemptCount, hr.core, fun t ht => ?_, hmem, hnone⟩,
      h.goesOn hwin h.sched (h.flags hwin) rfl⟩
    · rw [Virtual.step, hr.preemptCount]
      rcases hv with rfl | ⟨rfl, hcount⟩
      · rfl
      · rw [if_neg hcount]
        rfl
    · refine (hr.ctx t ht).trans ?_
      rw [TaskCpu.ctx, TaskCpu.ctx, readRegisters_congr (hareas t ht)]
  · obtain ⟨hmem, hnone⟩ := hr.forget hwin hf
    obtain ⟨hnext, hwithin⟩ := (h.sched.schedTask h.current).popTask h.idle
    rw [← hr'] at hnext hwithin
    obtain ⟨next, sched⟩ := r
    refine ⟨{ m with
      sched := sched
      current := some next
      mem := m.forget (framesBelow (registersSize + depth) (m.ctx m.current).alignedSp) }, ?_,
      ⟨rfl, rfl, hr.preemptCount, nofun, fun t ht => ?_, hmem, hnone⟩,
      h.update h.current hwithin nofun (fun t ht => hcr3.trans (h.cr3 t ht))
        (fun t ht => Option.some.inj ht ▸ hnext) hsusp fun _ => hmasked⟩
    · rw [Virtual.step, hr.preemptCount, if_pos hcount]
      simp only [Virtual.switch, hr.sched, hcur, ← hr']
      rfl
    · refine (hr.ctx t ht).trans ((hctx t ht).symm.trans ?_)
      rw [TaskCpu.ctx, if_neg fun hc => absurd hc.1 (Option.some_ne_none next)]

/-- **The end of the window**: the next task has its registers. -/
theorem Refines.goToTask (hr : s.Refines m) (h : s.Inv idle) {t : ℕ} (ht : s.window = some t) :
    (s.goToTask t).Refines m ∧ (s.goToTask t).Inv idle := by
  have htask : t ∈ s.tasks := h.window t ht
  have hsusp := h.suspended t htask
  have hread : (readRegisters s.cpu.mem (s.regs t)).core = s.ctx t :=
    (if_neg fun hc => absurd (ht.symm.trans hc.1) (Option.some_ne_none t)).symm
  rw [goToTask_spec]
  refine ⟨hr.load ht hsusp rfl hread htask, h.update (fun u hu => Option.some.inj hu ▸ htask) h.sched
    (fun _ => loadFlags_loadFlags _) (fun u hu => congrArg s.root (Option.some.inj hu)) ?_
    h.suspended fun hne => absurd hsusp hne⟩
  rw [hsusp]
  exact nofun

section InitKtimer

variable {k : KtimerInit}

theorem initKtimer_area_self : (s.initKtimer k).area k.task = bytesAt k.regs registersSize := by
  rw [area, initKtimer]
  simp only [Function.update_self]

theorem initKtimer_area {u : ℕ} (hu : u ≠ k.task) : (s.initKtimer k).area u = s.area u := by
  rw [area, area, initKtimer]
  simp only [Function.update_of_ne hu]

theorem Inv.initKtimer (h : s.Inv idle) (hwin : s.window = none)
    (hok : s.Ok depth (.initKtimer k)) : (s.initKtimer k).Inv idle where
  idle := List.mem_cons_of_mem _ h.idle
  current u hu := List.mem_cons_of_mem _ (h.current u hu)
  sched := h.sched.newTask hok.2.2.2.1
  apart u hu x hx hux := by
    by_cases hut : u = k.task
    · have hxt : x ≠ k.task := fun hxt => hux (hut.trans hxt.symm)
      rw [hut, initKtimer_area_self, initKtimer_area hxt]
      exact hok.2.2.1 x (List.mem_of_ne_of_mem hxt hx)
    · rw [initKtimer_area hut]
      by_cases hxt : x = k.task
      · rw [hxt, initKtimer_area_self]
        exact (hok.2.2.1 u (List.mem_of_ne_of_mem hut hu)).symm
      · rw [initKtimer_area hxt]
        exact h.apart u (List.mem_of_ne_of_mem hut hu) x (List.mem_of_ne_of_mem hxt hx) hux
  fits u hu := by
    change (Function.update s.regs k.task k.regs u).toNat + registersSize ≤ 2 ^ 64
    by_cases hut : u = k.task
    · rw [hut, Function.update_self]
      exact hok.2.1
    · rw [Function.update_of_ne hut]
      exact h.fits u (List.mem_of_ne_of_mem hut hu)
  flags := h.flags
  cr3 u hu := by
    have hut : u ≠ k.task := fun hut => hok.1 (hut ▸ h.current u hu)
    change s.cpu.cr3 = Function.update s.root k.task k.root u
    rw [Function.update_of_ne hut]
    exact h.cr3 u hu
  window u hu := List.mem_cons_of_mem _ (h.window u hu)
  suspended u hu := by
    change Function.update s.suspended k.task none u = none
    by_cases hut : u = k.task
    · rw [hut, Function.update_self]
    · rw [Function.update_of_ne hut, h.suspended u (List.mem_of_ne_of_mem hut hu)]
  masked hne := absurd hwin hne

/-- **`init_ktimer`** gives the new task its registers, and no other task loses any. -/
theorem Refines.initKtimer (hr : s.Refines m) (h : s.Inv idle) (hwin : s.window = none)
    (hok : s.Ok depth (.initKtimer k)) : (s.initKtimer k).Refines { m with
      ctx := Function.update m.ctx (some k.task) k.core
      sched := { m.sched with links := k.links }
      mem := m.forget (bytesAt k.regs registersSize) } := by
  obtain ⟨hnew, -, hapart, -, hzero⟩ := hok
  have hcur : s.current ≠ some k.task := fun hc => hnew (h.current k.task hc)
  have hkept : ∀ u ∈ s.tasks, ∀ b ∈ s.area u, k.registers b = s.cpu.mem b := fun u hu b hb =>
    KtimerInit.registers_of_notMem hzero (Set.disjoint_right.mp (hapart u hu) hb)
  refine ⟨hr.current, congrArg (fun c : Scheduler => { c with links := k.links }) hr.sched,
    hr.preemptCount, fun _ => ?_, fun u hu => ?_, fun b x hx => ?_, fun u hu b hb => ?_⟩
  · exact (Function.update_of_ne hcur _ _).trans (hr.core hwin)
  · rw [ctx_of_window (s := s.initKtimer k) hwin]
    change Function.update m.ctx (some k.task) k.core (some u) =
      if s.current = some u then s.cpu.core
      else (readRegisters k.registers (Function.update s.regs k.task k.regs u)).core
    by_cases hut : u = k.task
    · rw [hut, Function.update_self, Function.update_self, if_neg hcur,
        KtimerInit.core_registers hzero]
    · have hu' : u ∈ s.tasks := List.mem_of_ne_of_mem hut hu
      rw [Function.update_of_ne hut, Function.update_of_ne fun h => hut (Option.some.inj h),
        readRegisters_congr (hkept u hu'), hr.ctx u hu', ctx_of_window hwin]
  · change m.forget (bytesAt k.regs registersSize) b = some x at hx
    rw [Virtual.forget] at hx
    split_ifs at hx with hb
    exact (KtimerInit.registers_of_notMem hzero hb).trans (hr.mem b x hx)
  · change m.forget (bytesAt k.regs registersSize) b = none
    rw [Virtual.forget]
    by_cases hut : u = k.task
    · rw [hut, initKtimer_area_self] at hb
      exact if_pos hb
    · rw [initKtimer_area hut] at hb
      split_ifs
      · rfl
      · exact hr.areas u (List.mem_of_ne_of_mem hut hu) b hb

end InitKtimer

/-- **Code that runs** changes its own registers, and no others. -/
theorem Refines.run (hr : s.Refines m) (h : s.Inv idle) (hwin : s.window = none) {core : Core}
    {cliCount : BitVec 64} {writes : List (BitVec 64 × UInt8)}
    (hok : s.Ok depth (.run core cliCount writes)) :
    ({ s with
      cpu := { s.cpu with core := core, mem := storeBytes s.cpu.mem writes }
      cliCount := cliCount } : TaskCpu).Refines { m with
        ctx := Function.update m.ctx m.current core
        mem := storeBytes m.mem (writes.map fun w => (w.1, some w.2)) } ∧
    ({ s with
      cpu := { s.cpu with core := core, mem := storeBytes s.cpu.mem writes }
      cliCount := cliCount } : TaskCpu).Inv idle := by
  have hcur := hr.current.trans (running_of_window hwin)
  have hareas : ∀ t ∈ s.tasks, ∀ b ∈ s.area t, storeBytes s.cpu.mem writes b = s.cpu.mem b :=
    fun t ht b hb => storeBytes_of_notMem fun w hw hwb => hok.2 t ht w hw (hwb ▸ hb)
  refine ⟨⟨hr.current, hr.sched, hr.preemptCount, fun _ => ?_, fun t ht => ?_,
    storeBytes_some hr.mem writes, fun t ht b hb => ?_⟩, h.goesOn hwin h.sched hok.1 rfl⟩
  · rw [hcur]
    exact Function.update_self _ _ _
  · rw [ctx_of_window (by exact hwin), readRegisters_congr (hareas t ht), hcur]
    change Function.update m.ctx s.current core (some t) = if s.current = some t then core else _
    split_ifs with htc
    · rw [htc, Function.update_self]
    · rw [Function.update_of_ne (Ne.symm htc), hr.ctx t ht, ctx_of_window hwin, if_neg htc]
  · refine (storeBytes_of_notMem fun w hw hwb => ?_).trans (hr.areas t ht b hb)
    obtain ⟨w', hw', rfl⟩ := List.mem_map.mp hw
    exact hok.2 t ht w' hw' (hwb ▸ hb)

/-- **One step.** -/
theorem step_refines (hdepth : registersSize + depth ≤ 2 ^ 64) (hr : s.Refines m) (h : s.Inv idle)
    (hok : s.Ok depth e) (hs : s.step idle depth e = some s') :
    ∃ m', m.step idle depth e = some m' ∧ s'.Refines m' ∧ s'.Inv idle := by
  cases e with
  | run core cliCount writes =>
    obtain ⟨hwin, rfl⟩ := goesOn_eq_some.mp hs
    exact ⟨_, rfl, hr.run h hwin hok⟩
  | interrupt v error code scratch =>
    rw [step, if_pos (.inl hok.1)] at hs
    exact hr.interrupt hdepth h hok hs
  | goToTask =>
    obtain ⟨t, ht, rfl⟩ := Option.map_eq_some_iff.mp hs
    exact ⟨m, rfl, hr.goToTask h ht⟩
  | initKtimer k =>
    obtain ⟨hwin, rfl⟩ := goesOn_eq_some.mp hs
    exact ⟨_, rfl, hr.initKtimer h hwin hok, h.initKtimer hwin hok⟩
  | schedTask t =>
    obtain ⟨hwin, rfl⟩ := goesOn_eq_some.mp hs
    exact ⟨_, rfl, ⟨hr.current, congrArg (Scheduler._schedTask idle · (some t)) hr.sched,
      hr.preemptCount, hr.core, hr.ctx, hr.mem, hr.areas⟩,
      h.goesOn hwin (h.sched.schedTask fun u hu => Option.some.inj hu ▸ hok) (h.flags hwin) rfl⟩
  | preemptDisable =>
    obtain ⟨hwin, rfl⟩ := goesOn_eq_some.mp hs
    exact ⟨_, rfl, ⟨hr.current, hr.sched, congrArg (· + 1) hr.preemptCount, hr.core, hr.ctx, hr.mem,
      hr.areas⟩, { h with }⟩
  | preemptEnable =>
    obtain ⟨hwin, rfl⟩ := goesOn_eq_some.mp hs
    exact ⟨_, rfl, ⟨hr.current, hr.sched, congrArg (· - 1) hr.preemptCount, hr.core, hr.ctx, hr.mem,
      hr.areas⟩, { h with }⟩

/-! ### Whole runs -/

open Classical in
/-- The machine with registers for each task, in the state that the processor is in. -/
noncomputable def toVirtual (s : TaskCpu) : Virtual where
  ctx o := match o with
    | some t => s.ctx t
    | none => s.cpu.core
  current := s.running
  sched := s.sched
  preemptCount := s.preemptCount
  mem b := if ∃ t ∈ s.tasks, b ∈ s.area t then none else some (s.cpu.mem b)

theorem refines_toVirtual (s : TaskCpu) : s.Refines s.toVirtual where
  current := rfl
  sched := rfl
  preemptCount := rfl
  core hwin := by
    cases hcur : s.current with
    | none => rfl
    | some t => exact if_pos ⟨hwin, hcur⟩
  ctx _ _ := rfl
  mem b x hx := by
    rw [toVirtual] at hx
    simp only at hx
    split_ifs at hx
    exact Option.some.inj hx
  areas t ht b hb := if_pos ⟨t, ht, hb⟩

/-- The step is not one of a task, and does not set it up. -/
def Leaves (t : ℕ) (s : TaskCpu) : SwitchEvent → Prop
  | .run _ _ _ => s.current ≠ some t
  | _ => True

/-- **One step of another task** leaves the registers of a task, and its page tables. -/
theorem step_kept {t : ℕ} (hdepth : registersSize + depth ≤ 2 ^ 64) (h : s.Inv idle)
    (hok : s.Ok depth e) (hleaves : Leaves t s e) (hs : s.step idle depth e = some s')
    (ht : t ∈ s.tasks) : t ∈ s'.tasks ∧ s'.root t = s.root t ∧ s'.ctx t = s.ctx t := by
  obtain ⟨m', hm', hr', -⟩ := step_refines hdepth s.refines_toVirtual h hok hs
  have hctx (ht' : t ∈ s'.tasks) (hm : m'.ctx (some t) = s.ctx t) : s'.ctx t = s.ctx t :=
    (hr'.ctx t ht').symm.trans hm
  cases e with
  | run core cliCount writes =>
    obtain ⟨hwin, rfl⟩ := goesOn_eq_some.mp hs
    obtain rfl := Option.some.inj hm'
    refine ⟨ht, rfl, hctx ht (Function.update_of_ne (fun heq => hleaves ?_) _ _)⟩
    exact ((running_of_window hwin).symm.trans heq.symm)
  | interrupt v error code scratch =>
    rw [step, if_pos (.inl hok.1)] at hs
    have hm : m'.ctx (some t) = s.ctx t := by
      rw [Virtual.step] at hm'
      split_ifs at hm' <;> obtain rfl := Option.some.inj hm' <;> rfl
    have hkept : s'.tasks = s.tasks ∧ s'.root = s.root := by
      rcases interrupt_cases hdepth h hok hs with ⟨f, -, rfl, -⟩ | ⟨f, r, p, c, w, -, -, -, rfl, -⟩
      · exact ⟨rfl, rfl⟩
      · exact ⟨rfl, rfl⟩
    exact ⟨hkept.1 ▸ ht, congrFun hkept.2 t, hctx (hkept.1 ▸ ht) hm⟩
  | goToTask =>
    obtain ⟨u, -, rfl⟩ := Option.map_eq_some_iff.mp hs
    obtain rfl := Option.some.inj hm'
    exact ⟨ht, rfl, hctx ht rfl⟩
  | initKtimer k =>
    obtain ⟨-, rfl⟩ := goesOn_eq_some.mp hs
    obtain rfl := Option.some.inj hm'
    have hne : t ≠ k.task := fun htu => hok.1 (htu ▸ ht)
    have ht' : t ∈ k.task :: s.tasks := List.mem_cons_of_mem _ ht
    exact ⟨ht', Function.update_of_ne hne _ _,
      hctx ht' (Function.update_of_ne (fun htu => hne (Option.some.inj htu)) _ _)⟩
  | _ =>
    obtain ⟨-, rfl⟩ := goesOn_eq_some.mp hs
    obtain rfl := Option.some.inj hm'
    exact ⟨ht, rfl, hctx ht rfl⟩

/-- The interrupts that the kernel handles are handled. -/
theorem exists_interrupt (hv : v = 0x3 ∨ v = 0x20) :
    ∃ s', s.interrupt idle depth v error code scratch = some s' := by
  have hlt : v < 256 := by omega
  simp only [TaskCpu.interrupt, isrGenericHandler_eq hlt (handed_vector _ _ _)]
  by_cases h3 : v = 0x3
  · rw [if_pos h3]
    exact ⟨_, rfl⟩
  · rw [if_neg h3, if_pos (hv.resolve_left h3)]
    by_cases hcount : s.preemptCount = 0
    · rw [if_pos hcount]
      exact ⟨_, rfl⟩
    · rw [if_neg hcount]
      exact ⟨_, rfl⟩

end TaskCpu

section Runs

variable {s s' : TaskCpu} {es : List SwitchEvent} {idle depth : ℕ} {k : KtimerInit}

/-- **No task notices that it was interrupted**, as long as no interrupt is taken in the window.
Every run of the processor is a run of the machine that has registers for each task. -/
theorem switch_refines (hdepth : registersSize + depth ≤ 2 ^ 64) (h : s.Inv idle)
    (hr : Run (fun s e => s.step idle depth e) (TaskCpu.Ok depth) s es s') :
    ∃ m, Run (fun m e => m.step idle depth e) (fun _ _ => True) s.toVirtual es m ∧
      s'.Refines m ∧ s'.Inv idle :=
  hr.simulate (fun _ _ _ _ hR hok hs => TaskCpu.step_refines hdepth hR.1 hR.2 hok hs)
    ⟨s.refines_toVirtual, h⟩

/-- A processor with an idle task. -/
def bootCpu : TaskCpu where
  cpu := ⟨⟨fun _ => 0, 0x8000, 0, 2, 8, 0⟩, 0, fun _ => 0xcc⟩
  sched := ⟨none, none, ⟨fun _ => none, fun _ => none⟩⟩
  current := none
  preemptCount := 0
  cliCount := 0
  window := none
  suspended := fun _ => none
  regs := fun _ => 0x1000
  root := fun _ => 0
  tasks := [0]

theorem inv_bootCpu : bootCpu.Inv 0 where
  idle := List.mem_singleton_self 0
  current _ hu := by cases hu
  sched :=
    { head := fun _ hu => by cases hu
      tail := fun _ hu => by cases hu
      prev := fun _ _ _ hu => by cases hu }
  apart u hu x hx hne :=
    absurd ((List.mem_singleton.mp hu).trans (List.mem_singleton.mp hx).symm) hne
  fits _ _ := (by decide : (0x1000#64).toNat + registersSize ≤ 2 ^ 64)
  flags _ := (by decide : loadFlags 2 = 2)
  cr3 _ hu := by cases hu
  window _ hu := by cases hu
  suspended _ _ := rfl
  masked hne := absurd rfl hne

/-- Memory in which a `struct registers` was zeroed. -/
def zeroedAt (regs : BitVec 64) : Memory := fun b =>
  if (b - regs).toNat < registersSize then 0 else 0xcc

theorem kzalloced_zeroedAt (regs : BitVec 64) :
    Kzalloced bootCpu.cpu.mem (zeroedAt regs) regs registersSize :=
  ⟨fun _ hb => if_pos hb, fun _ hb => if_neg hb⟩

/-- A timer. -/
def bootTimer : KtimerInit where
  task := 1
  regs := 0x2000
  root := 0x5000
  stack := 0x10000
  doKtimer := 0x777
  ktimer := 0x333
  links := ⟨fun _ => none, fun _ => none⟩
  mem := zeroedAt 0x2000

/-- The timer was set up and queued. -/
def readyCpu : TaskCpu :=
  { bootCpu.initKtimer bootTimer with
    sched := (bootCpu.initKtimer bootTimer).sched._schedTask 0 (some 1) }

/-- An interrupt whose handler leaves zeros. -/
def bootInterrupt : SwitchEvent := .interrupt 0x20 0 ⟨fun _ => 0, 0x7f00, 0, 0, 8, 0⟩ fun _ => 0

/-- A timer is set up and queued, an interrupt comes, and the timer is gone to. -/
theorem run_bootCpu : ∃ s, Run (fun s e => s.step 0 64 e)
      (fun s e => s.Ok 64 e ∧ TaskCpu.Leaves 1 s e) bootCpu
      [.initKtimer bootTimer, .schedTask 1, bootInterrupt, .goToTask] s ∧
    s.window = none ∧ s.current = some 1 := by
  have hupdate : Function.update (fun _ => none) 1 none = fun _ : ℕ => (none : Option ℕ) :=
    Function.update_eq_self_iff.mpr rfl
  have hok : bootCpu.Ok 64 (.initKtimer bootTimer) := by
    refine ⟨by decide, by decide, fun u hu => Set.disjoint_left.mpr fun b hb hb' => ?_,
      ⟨hupdate.symm, hupdate.symm⟩, kzalloced_zeroedAt 0x2000⟩
    change (b - 0x1000).toNat < 176 at hb'
    change (b - 0x2000).toNat < 176 at hb
    bv_omega
  have hinv₁ := inv_bootCpu.initKtimer rfl hok
  have hinv : TaskCpu.Inv readyCpu 0 := hinv₁.goesOn rfl
    (hinv₁.sched.schedTask fun u hu => by
      rw [← Option.some.inj hu]
      exact List.mem_cons_self) (by decide) rfl
  have hok' : readyCpu.Ok 64 bootInterrupt := by
    refine ⟨rfl, by decide, fun u hu => Set.disjoint_left.mpr fun b hb hb' => ?_⟩
    have hsp : bootCpu.cpu.core.alignedSp = 0x8000 := by decide
    change (b - (bootCpu.cpu.core.alignedSp - .ofNat 64 240)).toNat < 240 at hb
    rw [hsp] at hb
    rcases List.mem_cons.mp hu with rfl | hu
    · change (b - 0x2000).toNat < 176 at hb'
      bv_omega
    · rw [List.mem_singleton.mp hu] at hb'
      change (b - 0x1000).toNat < 176 at hb'
      bv_omega
  obtain ⟨s, hs⟩ : ∃ s, readyCpu.interrupt 0 64 0x20 0 ⟨fun _ => 0, 0x7f00, 0, 0, 8, 0⟩
      (fun _ => 0) = some s := TaskCpu.exists_interrupt (.inr rfl)
  obtain ⟨hwin, htasks⟩ : s.window = some 1 ∧ ∀ t ∈ readyCpu.tasks, s.suspended t = none := by
    rcases TaskCpu.interrupt_cases (by decide) hinv hok' hs with
      ⟨f, hv, -⟩ | ⟨f, r, p, c, w, -, -, rfl, rfl, -, -, -, hw, -⟩
    · exact absurd rfl (hv.resolve_left (by decide)).2
    · exact ⟨rfl, hw⟩
  have hgo : s.step 0 64 .goToTask = some (s.goToTask 1) := by
    rw [TaskCpu.step, hwin]
    rfl
  refine ⟨s.goToTask 1, .cons ⟨hok, trivial⟩ rfl (.cons ⟨List.mem_cons_self, trivial⟩ rfl
    (.cons ⟨hok', trivial⟩ hs (.cons ⟨trivial, trivial⟩ hgo (.nil _)))), ?_, rfl⟩
  exact htasks 1 List.mem_cons_self

theorem switch_refines_timer : ∃ (s : TaskCpu) (m : Virtual),
    Run (fun m e => m.step 0 64 e) (fun _ _ => True) bootCpu.toVirtual
      [.initKtimer bootTimer, .schedTask 1, bootInterrupt, .goToTask] m ∧
      s.Refines m ∧ s.Inv 0 := by
  obtain ⟨s, hr, -⟩ := run_bootCpu
  exact ⟨s, switch_refines (by decide) inv_bootCpu (hr.mono fun _ _ hok => hok.1)⟩

/-- **Where a kernel timer starts.** Whatever runs before it, when the new task is current for the
first time it is at the start of `do_ktimer`, with its timer as the argument, on its own stack, in
its own page tables, and with interrupts masked. -/
theorem ktimer_starts (hdepth : registersSize + depth ≤ 2 ^ 64) (h : s.Inv idle)
    (hr : Run (fun s e => s.step idle depth e) (fun s e => s.Ok depth e ∧ TaskCpu.Leaves k.task s e) s
      (.initKtimer k :: es) s')
    (hwin : s'.window = none) (hcur : s'.current = some k.task) :
    s'.cpu.core = k.core ∧ s'.cpu.cr3 = k.root := by
  obtain ⟨⟨hok, -⟩, s₁, hs₁, hrun⟩ := Run.cons_iff.mp hr
  obtain ⟨hwin₀, rfl⟩ := TaskCpu.goesOn_eq_some.mp hs₁
  have hstart := (s.refines_toVirtual.initKtimer h hwin₀ hok).ctx k.task List.mem_cons_self
  -- the task has the registers it was given as long as it does not run
  have hkept := hrun.invariant (P := fun s₂ => s₂.Inv idle ∧ k.task ∈ s₂.tasks ∧
      s₂.root k.task = k.root ∧ s₂.ctx k.task = k.core)
    (fun s₂ e s₃ hP hok₂ hs₃ => by
      obtain ⟨hinv, ht, hroot, hctx⟩ := hP
      obtain ⟨-, -, -, hinv'⟩ :=
        TaskCpu.step_refines hdepth s₂.refines_toVirtual hinv hok₂.1 hs₃
      obtain ⟨ht', hroot', hctx'⟩ := TaskCpu.step_kept hdepth hinv hok₂.1 hok₂.2 hs₃ ht
      exact ⟨hinv', ht', hroot'.trans hroot, hctx'.trans hctx⟩)
    ⟨h.initKtimer hwin₀ hok, List.mem_cons_self, Function.update_self _ _ _,
      hstart.symm.trans (Function.update_self _ _ _)⟩
  obtain ⟨hinv, -, hroot, hctx⟩ := hkept
  rw [TaskCpu.ctx, if_pos ⟨hwin, hcur⟩] at hctx
  exact ⟨hctx, (hinv.cr3 k.task hcur).trans hroot⟩

theorem ktimer_starts_one : ∃ s : TaskCpu,
    s.cpu.core = bootTimer.core ∧ s.cpu.cr3 = 0x5000 := by
  obtain ⟨s, hr, hwin, hcur⟩ := run_bootCpu
  exact ⟨s, ktimer_starts (k := bootTimer) (by decide) inv_bootCpu hr hwin hcur⟩

theorem core_idleRegisters {f g : Memory} {regs : BitVec 64} (h : Kzalloced f g regs registersSize)
    (schedIdle : BitVec 64) : (readRegisters (idleRegisters g regs schedIdle) regs).core =
      ⟨fun _ => 0, 0, schedIdle, 2, 8, 0⟩ := by
  have hread (i : ℕ) (hi : i < 22) :
      (idleRegisters g regs schedIdle).load (regs + .ofNat 64 (8 * i)) =
        ((List.range 22).map fun i => if 18 = i then kernelCs
          else if 17 = i then schedIdle else 0).getD i 0 := by
    rw [load_idleRegisters h hi]
    simp [hi]
  rw [readRegisters_eq hread, Registers.core, Core.mk.injEq]
  refine ⟨?_, rfl, rfl, (by decide : loadFlags 0 = 2), (by decide : kernelCs.setWidth 16 = 8),
    (by decide : (0 : BitVec 64).setWidth 16 = 0)⟩
  funext r
  cases r <;> rfl

/-- **The idle task has no stack.** It starts at `sched_idle` with a stack pointer of zero, which
its loop leaves alone. What an interrupt pushes there, up to the call of the handler, goes to the
end of the address space. -/
theorem idle_starts (s : TaskCpu) (idle : ℕ) (regs root schedIdle : BitVec 64) {mem : Memory}
    (h : Kzalloced s.cpu.mem mem regs registersSize) :
    ((s.schedInit idle regs root schedIdle mem).goToTask idle).cpu =
      ⟨⟨fun _ => 0, 0, schedIdle, 2, 8, 0⟩, root, idleRegisters mem regs schedIdle⟩ ∧
    ∀ (p : Processor) (v : ℕ) (error retpoline b : BitVec 64), p.core.rsp = 0 →
      ((p.interrupt v error).callHandler retpoline).mem b ≠ p.mem b → 2 ^ 64 - 192 ≤ b.toNat := by
  constructor
  · rw [TaskCpu.goToTask_spec, TaskCpu.schedInit]
    simp only [Function.update_self, core_idleRegisters h]
  · intro p v error retpoline b hrsp hb
    have hsp : p.core.alignedSp = 0 := by
      rw [Core.alignedSp, hrsp]
      decide
    obtain ⟨hmin, hmax⟩ := length_stacked_le p.core v error
    by_contra hlt
    have hpushed : (p.interrupt v error).mem b = p.mem b := by
      rw [interrupt_mem, hsp]
      refine Memory.pushAll_of_notMem (by rw [List.length_reverse]; omega) ?_
      rw [List.length_reverse, mem_bytesAt]
      bv_omega
    refine hb (Eq.trans (Memory.store_of_notMem ?_) hpushed)
    rw [interrupt_rsp, hsp, mem_bytesAt]
    bv_omega

theorem idle_starts_boot :
    ((bootCpu.schedInit 0 0x1000 0x4000 0x999 (zeroedAt 0x1000)).goToTask 0).cpu =
      ⟨⟨fun _ => 0, 0, 0x999, 2, 8, 0⟩, 0x4000, idleRegisters (zeroedAt 0x1000) 0x1000 0x999⟩ ∧
    ∀ (p : Processor) (v : ℕ) (error retpoline b : BitVec 64), p.core.rsp = 0 →
      ((p.interrupt v error).callHandler retpoline).mem b ≠ p.mem b → 2 ^ 64 - 192 ≤ b.toNat :=
  idle_starts bootCpu 0 0x1000 0x4000 0x999 (kzalloced_zeroedAt 0x1000)

end Runs

end GoofyOs
