import GoofyOs.ForMathlib.Quadwords
import Mathlib.Data.List.Basic

/-!
# Interrupt entry and return

When an interrupt is delivered, the processor aligns the stack and pushes what it needs to come
back. The stub of the vector pushes a zero in place of an error code, if it takes the processor to
push none, and the number of the vector, and `isr_generic_stub` pushes the general registers. What
lies on the stack then is a `struct registers`, and it goes to `isr_generic_handler`. From
`retpoline` on everything is popped again.

Six stubs push no zero. The processor has an error code for ten vectors. For the other four of them
what the handler sees is one field off.

The stubs are run on a processor with its registers and a memory of bytes. The arithmetic flags that
`add` sets are left out, because `iretq` loads them all; and so are the checks of `iretq`.

## Main definitions

* `Processor`, `Instr`, `Processor.exec` — the processor
* `Processor.dispatch` — what it does when an interrupt is delivered
* `isrVector`, `isrGenericStub`, `retpoline`, `returnToCtx` — the code
* `Registers`, `readRegisters` — a `struct registers` in memory
* `isrGenericHandler`, `dumpRegs` — the handler

## Main results

* `handed_eq` — what the handler is given, for every vector
* `isr_frame_iff` — when these are the registers of the interrupted code
* `retpoline_spec`, `returnToCtx_spec` — what is loaded on the way back
* `resume_interrupted` — the way back leads to the interrupted code
-/

namespace GoofyOs

/-- The general registers other than `rsp`. -/
inductive Gpr
  | rbp | rax | rbx | rcx | rdx | rdi | rsi | r8 | r9 | r10 | r11 | r12 | r13 | r14 | r15
  deriving DecidableEq

/-- The registers that a running program sees. -/
structure Core where
  gpr : Gpr → BitVec 64
  rsp : BitVec 64
  rip : BitVec 64
  rflags : BitVec 64
  cs : BitVec 16
  ss : BitVec 16

/-- A processor and its memory. -/
structure Processor where
  core : Core
  cr3 : BitVec 64
  mem : Memory

/-- The instructions of the stubs. -/
inductive Instr
  | pushImm (v : BitVec 64)
  | push (r : Gpr)
  | pop (r : Gpr)
  | movFromRsp (dst : Gpr)
  | movToRsp (src : Gpr)
  | movToCr3 (src : Gpr)
  | addRsp (v : BitVec 64)
  | iretq

/-- The bits of `rflags` that can be set by a load. -/
def flagsMask : BitVec 64 := 0x3F7FD5

/-- What `rflags` is after it was loaded: bit 1 is always set, and the reserved bits are not. -/
def loadFlags (v : BitVec 64) : BitVec 64 := v &&& flagsMask ||| 2

/-- The flags that an interrupt gate clears: `TF`, `IF`, `NT`, `RF` and `VM`. -/
def flagsOfGate : BitVec 64 := 0x34300

namespace Processor

variable (p : Processor)

/-- Pushing a quadword. -/
def push (v : BitVec 64) : Processor :=
  { p with
    core := { p.core with rsp := p.core.rsp - 8 }
    mem := p.mem.store (p.core.rsp - 8) v }

/-- One instruction. -/
def exec : Instr → Processor
  | .pushImm v => p.push v
  | .push r => p.push (p.core.gpr r)
  | .pop r =>
    { p with
      core :=
        { p.core with
          gpr := Function.update p.core.gpr r (p.mem.load p.core.rsp)
          rsp := p.core.rsp + 8 } }
  | .movFromRsp dst =>
    { p with core := { p.core with gpr := Function.update p.core.gpr dst p.core.rsp } }
  | .movToRsp src => { p with core := { p.core with rsp := p.core.gpr src } }
  | .movToCr3 src => { p with cr3 := p.core.gpr src }
  | .addRsp v => { p with core := { p.core with rsp := p.core.rsp + v } }
  | .iretq =>
    { p with
      core :=
        { p.core with
          rip := p.mem.load p.core.rsp
          cs := (p.mem.load (p.core.rsp + 8)).setWidth 16
          rflags := loadFlags (p.mem.load (p.core.rsp + 16))
          rsp := p.mem.load (p.core.rsp + 24)
          ss := (p.mem.load (p.core.rsp + 32)).setWidth 16 } }

/-- A stretch of code. -/
def execAll (is : List Instr) : Processor := is.foldl exec p

/-- The processor delivers an interrupt through an interrupt gate: it aligns the stack, pushes what
`iretq` needs and the error code, if there is one, and masks further interrupts. -/
def dispatch (error : Option (BitVec 64)) : Processor :=
  let sp := p.core.rsp &&& ~~~15
  let frame := [p.core.ss.setWidth 64, p.core.rsp, p.core.rflags, p.core.cs.setWidth 64,
    p.core.rip] ++ error.toList
  { p with
    core :=
      { p.core with
        rsp := sp - .ofNat 64 (8 * frame.length)
        rflags := p.core.rflags &&& ~~~flagsOfGate }
    mem := p.mem.pushAll sp frame }

end Processor

/-! ### `generic-stub.asm` -/

/-- The stubs without a `push 0`. -/
def stubsWithError : List ℕ := [8, 10, 11, 13, 14, 17]

/-- `isr_generic_stub`, up to the call. -/
def isrGenericStub : List Instr :=
  [.push .r15, .push .r14, .push .r13, .push .r12, .push .r11, .push .r10, .push .r9, .push .r8,
    .push .rsi, .push .rdi, .push .rdx, .push .rcx, .push .rbx, .push .rax, .push .rbp,
    .movFromRsp .rdi]

/-- The stub of vector `n`, and what it jumps to. -/
def isrVector (n : ℕ) : List Instr :=
  (if n ∈ stubsWithError then [] else [.pushImm 0]) ++ [.pushImm (.ofNat 64 n)] ++ isrGenericStub

/-- `retpoline`. -/
def retpoline : List Instr :=
  [.pop .rbp, .pop .rax, .pop .rbx, .pop .rcx, .pop .rdx, .pop .rdi, .pop .rsi, .pop .r8, .pop .r9,
    .pop .r10, .pop .r11, .pop .r12, .pop .r13, .pop .r14, .pop .r15, .addRsp 16, .iretq]

/-- `return_to_ctx`. -/
def returnToCtx : List Instr := [.movToRsp .rdi, .movToCr3 .rsi] ++ retpoline

/-- The vectors for which the processor pushes an error code. -/
def errorVectors : List ℕ := [8, 10, 11, 12, 13, 14, 17, 21, 29, 30]

/-- The delivery of an interrupt, up to the call of `isr_generic_handler`. -/
def Processor.interrupt (p : Processor) (v : ℕ) (error : BitVec 64) : Processor :=
  (p.dispatch (if v ∈ errorVectors then some error else none)).execAll (isrVector v)

/-! ### `struct registers` -/

/-- `struct registers`. -/
structure Registers where
  gpr : Gpr → BitVec 64
  vectorNumber : BitVec 64
  errorCode : BitVec 64
  rip : BitVec 64
  cs : BitVec 64
  flags : BitVec 64
  rsp : BitVec 64
  ss : BitVec 64

/-- The general registers in the order of the fields of `struct registers`. -/
def gprFields : List Gpr :=
  [.rbp, .rax, .rbx, .rcx, .rdx, .rdi, .rsi, .r8, .r9, .r10, .r11, .r12, .r13, .r14, .r15]

/-- `sizeof(struct registers)`. -/
def registersSize : ℕ := 176

/-- The `struct registers` at an address. -/
def readRegisters (f : Memory) (a : BitVec 64) : Registers where
  gpr r := f.load (a + .ofNat 64 (8 * gprFields.idxOf r))
  vectorNumber := f.load (a + 120)
  errorCode := f.load (a + 128)
  rip := f.load (a + 136)
  cs := f.load (a + 144)
  flags := f.load (a + 152)
  rsp := f.load (a + 160)
  ss := f.load (a + 168)

/-- What `isr_generic_handler` is given. -/
def Processor.handed (p : Processor) (v : ℕ) (error : BitVec 64) : Registers :=
  readRegisters (p.interrupt v error).mem ((p.interrupt v error).core.gpr .rdi)

/-- What is loaded from a `struct registers`. -/
def Registers.core (r : Registers) : Core where
  gpr := r.gpr
  rsp := r.rsp
  rip := r.rip
  rflags := loadFlags r.flags
  cs := r.cs.setWidth 16
  ss := r.ss.setWidth 16

/-- The registers of a running program, with what an interrupt adds to them. -/
def Core.registers (c : Core) (vector error : BitVec 64) : Registers where
  gpr := c.gpr
  vectorNumber := vector
  errorCode := error
  rip := c.rip
  cs := c.cs.setWidth 64
  flags := c.rflags
  rsp := c.rsp
  ss := c.ss.setWidth 64

/-! ### `generic-handler.c` -/

/-- `dump_regs`: what is printed, in this order. -/
def dumpRegs (ctx : Registers) : List (String × BitVec 64) :=
  [("rax", ctx.gpr .rax), ("rbx", ctx.gpr .rbx), ("rcx", ctx.gpr .rcx), ("rdx", ctx.gpr .rdx),
    ("rdi", ctx.gpr .rdi), ("rsi", ctx.gpr .rsi), ("r8", ctx.gpr .r8), ("r9", ctx.gpr .r9),
    ("r10", ctx.gpr .r10), ("r11", ctx.gpr .r11), ("r12", ctx.gpr .r12), ("r13", ctx.gpr .r13),
    ("r14", ctx.gpr .r14), ("r15", ctx.gpr .r15), ("rsp", ctx.rsp), ("rbp", ctx.gpr .rbp),
    ("rip", ctx.rip)]

/-- How `isr_generic_handler` ends. -/
inductive Handled
  | ret
  | schedule
  | hcf (vector : BitVec 64) (dump : List (String × BitVec 64))

/-- `isr_generic_handler` with `timer_handler` in it: whether it returns, calls `schedule`, or
prints the registers and halts. -/
def isrGenericHandler (preemptCount : ℕ) (ctx : Registers) : Handled :=
  if ctx.vectorNumber = 0x3 then .ret
  else if ctx.vectorNumber = 0x20 then if preemptCount = 0 then .schedule else .ret
  else .hcf ctx.vectorNumber (dumpRegs ctx)

/-! ### Pushing and popping -/

namespace Processor

variable {p : Processor} {vs ws : List (BitVec 64)} {rs : List Gpr} {is js : List Instr}

/-- The processor with quadwords pushed. -/
def pushes (p : Processor) (vs : List (BitVec 64)) : Processor :=
  { p with
    core := { p.core with rsp := p.core.rsp - .ofNat 64 (8 * vs.length) }
    mem := p.mem.pushAll p.core.rsp vs }

/-- The processor with general registers popped. -/
def pops (p : Processor) (rs : List Gpr) : Processor :=
  { p with
    core :=
      { p.core with
        gpr := fun r =>
          if r ∈ rs then p.mem.load (p.core.rsp + .ofNat 64 (8 * rs.idxOf r)) else p.core.gpr r
        rsp := p.core.rsp + .ofNat 64 (8 * rs.length) } }

theorem execAll_append : p.execAll (is ++ js) = (p.execAll is).execAll js := List.foldl_append

theorem push_pushes (v : BitVec 64) : (p.push v).pushes vs = p.pushes (v :: vs) := by
  have hsp : p.core.rsp - 8 - .ofNat 64 (8 * vs.length) =
      p.core.rsp - .ofNat 64 (8 * (v :: vs).length) := by
    rw [List.length_cons]
    bv_omega
  simp only [pushes, push, hsp, Memory.pushAll]

theorem pushes_nil : p.pushes [] = p := by
  have hsp : p.core.rsp - .ofNat 64 (8 * 0) = p.core.rsp := by bv_omega
  simp only [pushes, List.length_nil, hsp, Memory.pushAll]

theorem pushes_pushes : (p.pushes vs).pushes ws = p.pushes (vs ++ ws) := by
  induction vs generalizing p with
  | nil => rw [pushes_nil, List.nil_append]
  | cons v vs ih => rw [← push_pushes, ih, push_pushes, List.cons_append]

/-- Pushing registers one by one. -/
theorem execAll_push (rs : List Gpr) :
    p.execAll (rs.map .push) = p.pushes (rs.map p.core.gpr) := by
  induction rs generalizing p with
  | nil => exact pushes_nil.symm
  | cons r rs ih => exact (ih (p := p.push (p.core.gpr r))).trans (push_pushes _)

/-- Pushing numbers one by one. -/
theorem execAll_pushImm (vs : List (BitVec 64)) : p.execAll (vs.map .pushImm) = p.pushes vs := by
  induction vs generalizing p with
  | nil => exact pushes_nil.symm
  | cons v vs ih => exact (ih (p := p.push v)).trans (push_pushes _)

/-- Popping registers one by one. -/
theorem execAll_pop (hnd : rs.Nodup) : p.execAll (rs.map .pop) = p.pops rs := by
  induction rs generalizing p with
  | nil =>
    have hsp : p.core.rsp + .ofNat 64 (8 * 0) = p.core.rsp := by bv_omega
    simp only [List.map_nil, pops, List.not_mem_nil, if_false, List.length_nil, hsp]
    rfl
  | cons r rs ih =>
    obtain ⟨hr, hnd⟩ := List.nodup_cons.mp hnd
    have hsp (n : ℕ) : p.core.rsp + 8 + .ofNat 64 (8 * n) = p.core.rsp + .ofNat 64 (8 * (n + 1)) := by
      bv_omega
    refine (ih hnd).trans ?_
    simp only [pops, exec, hsp, List.length_cons, Processor.mk.injEq, Core.mk.injEq, and_true]
    funext x
    by_cases hx : x = r
    · have hfirst : p.core.rsp + .ofNat 64 (8 * 0) = p.core.rsp := by bv_omega
      rw [hx, if_neg hr, if_pos List.mem_cons_self, List.idxOf_cons_self, Function.update_self,
        hfirst]
    · rw [Function.update_of_ne hx, List.idxOf_cons_ne _ (Ne.symm hx)]
      simp only [List.mem_cons, hx, false_or]

end Processor

/-! ### The way back -/

section Return

variable {p : Processor}

theorem retpoline_eq : retpoline = gprFields.map .pop ++ [.addRsp 16, .iretq] := rfl

/-- **`retpoline` loads the `struct registers` at the stack pointer.** -/
theorem retpoline_spec (p : Processor) : p.execAll retpoline =
    { p with core := (readRegisters p.mem p.core.rsp).core } := by
  have hnd : gprFields.Nodup := by decide
  have hall (r : Gpr) : r ∈ gprFields := by cases r <;> decide
  have hrip : p.core.rsp + .ofNat 64 (8 * gprFields.length) + 16 = p.core.rsp + 136 := by
    have hlen : gprFields.length = 15 := rfl
    rw [hlen]
    bv_omega
  have hcs : p.core.rsp + 136 + 8 = p.core.rsp + 144 := by bv_omega
  have hflags : p.core.rsp + 136 + 16 = p.core.rsp + 152 := by bv_omega
  have hrsp : p.core.rsp + 136 + 24 = p.core.rsp + 160 := by bv_omega
  have hss : p.core.rsp + 136 + 32 = p.core.rsp + 168 := by bv_omega
  rw [retpoline_eq, Processor.execAll_append, Processor.execAll_pop hnd]
  simp only [Processor.execAll, List.foldl_cons, List.foldl_nil, Processor.exec, Processor.pops,
    hrip, hcs, hflags, hrsp, hss, hall, if_true, readRegisters, Registers.core]

/-- **`return_to_ctx` loads the `struct registers` it is given**, and changes to the page tables it
is given. -/
theorem returnToCtx_spec (p : Processor) : p.execAll returnToCtx =
    { p with
      core := (readRegisters p.mem (p.core.gpr .rdi)).core
      cr3 := p.core.gpr .rsi } := by
  rw [returnToCtx, Processor.execAll_append, retpoline_spec]
  rfl

end Return

/-! ### The way in -/

section Entry

variable {p : Processor} {f : Memory} {a : BitVec 64} {ws : List (BitVec 64)} {v : ℕ}
  {error : BitVec 64}

/-- A `struct registers` is read quadword by quadword. -/
theorem readRegisters_eq (h : ∀ i < 22, f.load (a + .ofNat 64 (8 * i)) = ws.getD i 0) :
    readRegisters f a =
      { gpr := fun r => ws.getD (gprFields.idxOf r) 0
        vectorNumber := ws.getD 15 0
        errorCode := ws.getD 16 0
        rip := ws.getD 17 0
        cs := ws.getD 18 0
        flags := ws.getD 19 0
        rsp := ws.getD 20 0
        ss := ws.getD 21 0 } := by
  have hgpr (r : Gpr) : gprFields.idxOf r < 22 := by cases r <;> decide
  simp only [readRegisters, h _ (hgpr _), ← h 15 (by omega), ← h 16 (by omega), ← h 17 (by omega),
    ← h 18 (by omega), ← h 19 (by omega), ← h 20 (by omega), ← h 21 (by omega)]
  rfl

/-- The quadwords that lie on the stack when `isr_generic_handler` is called, from its top on. -/
def Core.stacked (c : Core) (v : ℕ) (error : BitVec 64) : List (BitVec 64) :=
  gprFields.map c.gpr ++ [.ofNat 64 v] ++ (if v ∈ stubsWithError then [] else [0]) ++
    (if v ∈ errorVectors then [error] else []) ++
    [c.rip, c.cs.setWidth 64, c.rflags, c.rsp, c.ss.setWidth 64]

/-- The stack that an interrupt aligned. -/
def Core.alignedSp (c : Core) : BitVec 64 := c.rsp &&& ~~~15

/-- **The way into the kernel**: the interrupted registers are pushed on the aligned stack, and
`rdi` points to them. -/
theorem interrupt_spec (p : Processor) (v : ℕ) (error : BitVec 64) : p.interrupt v error =
    { p with
      core :=
        { p.core with
          gpr := Function.update p.core.gpr .rdi
            (p.core.alignedSp - .ofNat 64 (8 * (p.core.stacked v error).length))
          rsp := p.core.alignedSp - .ofNat 64 (8 * (p.core.stacked v error).length)
          rflags := p.core.rflags &&& ~~~flagsOfGate }
      mem := p.mem.pushAll p.core.alignedSp (p.core.stacked v error).reverse } := by
  have hstub : isrVector v =
      ((if v ∈ stubsWithError then [] else [0]) ++ [BitVec.ofNat 64 v]).map .pushImm ++
        gprFields.reverse.map .push ++ [.movFromRsp .rdi] := by
    rw [isrVector]
    split <;> rfl
  have hdispatch : p.dispatch (if v ∈ errorVectors then some error else none) =
      Processor.pushes
        { p with
          core :=
            { p.core with
              rsp := p.core.alignedSp
              rflags := p.core.rflags &&& ~~~flagsOfGate } }
        ([p.core.ss.setWidth 64, p.core.rsp, p.core.rflags, p.core.cs.setWidth 64, p.core.rip] ++
          if v ∈ errorVectors then [error] else []) := by
    split <;> rfl
  have hwords : (p.core.stacked v error).reverse =
      [p.core.ss.setWidth 64, p.core.rsp, p.core.rflags, p.core.cs.setWidth 64, p.core.rip] ++
        (if v ∈ errorVectors then [error] else []) ++
        ((if v ∈ stubsWithError then [] else [0]) ++ [.ofNat 64 v]) ++
        gprFields.reverse.map p.core.gpr := by
    rw [Core.stacked, List.map_reverse]
    split <;> split <;> simp
  have hlen : (p.core.stacked v error).length = (p.core.stacked v error).reverse.length :=
    List.length_reverse.symm
  rw [Processor.interrupt, hstub, hdispatch, Processor.execAll_append, Processor.execAll_append,
    Processor.execAll_pushImm, Processor.pushes_pushes, Processor.execAll_push,
    Processor.pushes_pushes, hlen, hwords]
  rfl

theorem length_stacked_le (c : Core) (v : ℕ) (error : BitVec 64) :
    22 ≤ (c.stacked v error).length ∧ (c.stacked v error).length ≤ 23 := by
  have hsub : v ∈ stubsWithError → v ∈ errorVectors := by simp [stubsWithError, errorVectors]; omega
  have hlen : gprFields.length = 15 := rfl
  simp only [Core.stacked, List.length_append, List.length_map, hlen]
  split_ifs <;> simp_all

theorem interrupt_mem (p : Processor) (v : ℕ) (error : BitVec 64) : (p.interrupt v error).mem =
    p.mem.pushAll p.core.alignedSp (p.core.stacked v error).reverse := by
  rw [interrupt_spec]

theorem interrupt_rsp (p : Processor) (v : ℕ) (error : BitVec 64) :
    (p.interrupt v error).core.rsp =
      p.core.alignedSp - .ofNat 64 (8 * (p.core.stacked v error).length) := by
  rw [interrupt_spec]

theorem interrupt_cr3 (p : Processor) (v : ℕ) (error : BitVec 64) :
    (p.interrupt v error).cr3 = p.cr3 := by
  rw [interrupt_spec]

theorem interrupt_rdi (p : Processor) (v : ℕ) (error : BitVec 64) :
    (p.interrupt v error).core.gpr .rdi = (p.interrupt v error).core.rsp := by
  rw [interrupt_spec]
  exact Function.update_self Gpr.rdi _ p.core.gpr

/-- What the handler reads is what was stacked. -/
theorem load_interrupt {i : ℕ} (hi : i < 22) :
    (p.interrupt v error).mem.load ((p.interrupt v error).core.gpr .rdi + .ofNat 64 (8 * i)) =
      (p.core.stacked v error).getD i 0 := by
  have hlen := length_stacked_le p.core v error
  have hrev : (p.core.stacked v error).reverse.length = (p.core.stacked v error).length :=
    List.length_reverse
  rw [interrupt_rdi, interrupt_rsp, interrupt_mem, ← hrev,
    Memory.load_pushAll_top (by omega) (by omega), List.reverse_reverse]

/-- The interrupted registers, one field off. -/
def Core.shifted (c : Core) (vector error : BitVec 64) : Registers where
  gpr := c.gpr
  vectorNumber := vector
  errorCode := 0
  rip := error
  cs := c.rip
  flags := c.cs.setWidth 64
  rsp := c.rflags
  ss := c.rsp

/-- **What the handler is given**: the interrupted registers, one field off if the stub pushed a
zero behind an error code. -/
theorem handed_eq (p : Processor) (v : ℕ) (error : BitVec 64) : p.handed v error =
    if v ∈ [12, 21, 29, 30] then p.core.shifted (.ofNat 64 v) error
    else p.core.registers (.ofNat 64 v) (if v ∈ errorVectors then error else 0) := by
  have hgpr (ws : List (BitVec 64)) (r : Gpr) :
      (gprFields.map p.core.gpr ++ ws).getD (gprFields.idxOf r) 0 = p.core.gpr r := by
    cases r <;> rfl
  rw [Processor.handed, readRegisters_eq fun i hi => load_interrupt hi]
  simp only [Core.stacked, List.append_assoc, hgpr]
  by_cases hv : v ∈ [12, 21, 29, 30]
  · have hstub : v ∉ stubsWithError := by simp [stubsWithError] at hv ⊢; omega
    have herr : v ∈ errorVectors := by simp [errorVectors] at hv ⊢; omega
    rw [if_pos hv, if_neg hstub, if_pos herr]
    rfl
  · rw [if_neg hv]
    by_cases herr : v ∈ errorVectors
    · have hstub : v ∈ stubsWithError := by simp [stubsWithError, errorVectors] at *; omega
      simp only [if_pos hstub, if_pos herr]
      rfl
    · have hstub : v ∉ stubsWithError := by simp [stubsWithError, errorVectors] at *; omega
      simp only [if_neg hstub, if_neg herr]
      rfl

theorem isrGenericHandler_eq (hv : v < 256) {ctx : Registers} {preemptCount : ℕ}
    (hctx : ctx.vectorNumber = .ofNat 64 v) : isrGenericHandler preemptCount ctx =
      if v = 0x3 then .ret
      else if v = 0x20 then if preemptCount = 0 then .schedule else .ret
      else .hcf (.ofNat 64 v) (dumpRegs ctx) := by
  have hvec (n : ℕ) (hn : n < 256) : ctx.vectorNumber = .ofNat 64 n ↔ v = n := by
    rw [hctx]
    constructor
    · intro h
      bv_omega
    · exact congrArg _
  rw [isrGenericHandler, ← hctx]
  exact if_congr (hvec 3 (by decide)) rfl (if_congr (hvec 0x20 (by decide)) rfl rfl)

/-- **The handler knows the registers of the interrupted code** for every vector but four. It
returns from a breakpoint, and from a timer interrupt unless it can reschedule; otherwise it prints
the registers and halts. -/
theorem isr_frame_iff {v : ℕ} (hv : v < 256) (preemptCount : ℕ) :
    (∀ (p : Processor) (error : BitVec 64), isrGenericHandler preemptCount (p.handed v error) =
      if v = 0x3 then .ret
      else if v = 0x20 then if preemptCount = 0 then .schedule else .ret
      else .hcf (.ofNat 64 v) (dumpRegs (p.core.registers (.ofNat 64 v) error))) ↔
    v ∉ [12, 21, 29, 30] := by
  constructor
  · intro h hmem
    -- a processor whose `rip` is not the error code
    have hrun := h ⟨⟨fun _ => 0, 0, 0, 0, 0, 0⟩, 0, fun _ => 0⟩ 1
    have h3 : v ≠ 0x3 := by rintro rfl; revert hmem; decide
    have h20 : v ≠ 0x20 := by rintro rfl; revert hmem; decide
    rw [handed_eq, if_pos hmem, isrGenericHandler_eq hv rfl, if_neg h3, if_neg h20, if_neg h3,
      if_neg h20] at hrun
    injection hrun with _ hdump
    have hrip : some ("rip", (1 : BitVec 64)) = some ("rip", 0) :=
      congrArg (fun l => l.getLast?) hdump
    revert hrip
    decide
  · intro hmem p error
    rw [handed_eq, if_neg hmem, isrGenericHandler_eq hv rfl]
    rfl

/-- `isr_frame_iff` for a general protection fault with error code 8 at address 5. -/
theorem isr_frame_iff_13 :
    isrGenericHandler 0 (Processor.handed ⟨⟨fun _ => 7, 64, 5, 2, 40, 48⟩, 0, fun _ => 0⟩ 13 8) =
      .hcf 13 (dumpRegs (Core.registers ⟨fun _ => 7, 64, 5, 2, 40, 48⟩ 13 8)) :=
  (isr_frame_iff (v := 13) (by decide) 0).mpr (by decide)
    ⟨⟨fun _ => 7, 64, 5, 2, 40, 48⟩, 0, fun _ => 0⟩ 8

end Entry

/-! ### The round trip -/

section RoundTrip

variable {p q : Processor} {f g : Memory} {a : BitVec 64} {v : ℕ} {error : BitVec 64}

/-- A `struct registers` is its bytes. -/
theorem readRegisters_congr (h : ∀ b ∈ bytesAt a registersSize, f b = g b) :
    readRegisters f a = readRegisters g a := by
  have hread (i : ℕ) (hi : i < 22) : g.load (a + .ofNat 64 (8 * i)) =
      ((List.range 22).map fun i => g.load (a + .ofNat 64 (8 * i))).getD i 0 := by
    simp [hi]
  refine (readRegisters_eq fun i hi => ?_).trans (readRegisters_eq hread).symm
  rw [← hread i hi]
  exact Memory.load_congr fun b hb =>
    h b (bytesAt_add_subset (by rw [registersSize]; omega) (by decide) hb)

/-- Loading the registers of a program gives the program back. -/
theorem core_registers {c : Core} (h : loadFlags c.rflags = c.rflags) (vector error : BitVec 64) :
    (c.registers vector error).core = c := by
  have hsel (x : BitVec 16) : (x.setWidth 64).setWidth 16 = x := by
    rw [BitVec.setWidth_setWidth_of_le _ (by decide), BitVec.setWidth_eq]
  simp only [Registers.core, Core.registers, h, hsel]

/-- **The way back leads to the interrupted code**, whatever the handler has done in between with
the registers and with the stack below what it was given. -/
theorem resume_interrupted (hv : v ∉ [12, 21, 29, 30])
    (hflags : loadFlags p.core.rflags = p.core.rflags)
    (hrsp : q.core.rsp = (p.interrupt v error).core.rsp)
    (hmem : ∀ b ∈ bytesAt (p.interrupt v error).core.rsp registersSize,
      q.mem b = (p.interrupt v error).mem b) :
    q.execAll retpoline = { q with core := p.core } := by
  have hread : readRegisters q.mem q.core.rsp = p.handed v error := by
    rw [Processor.handed, interrupt_rdi, hrsp]
    exact readRegisters_congr hmem
  rw [retpoline_spec, hread, handed_eq, if_neg hv, core_registers hflags]

end RoundTrip

end GoofyOs
