import GoofyOs.CpuIdentity
import GoofyOs.InterruptFrame

/-!
# Descriptors

`__idt_set_entry` and `set_tss_desc` take an address apart into the fields of a descriptor, and the
processor puts it together again. The handler of vector `v` is taken to be 16 bytes behind that of
vector `v - 1`. The stubs are aligned to 16 bytes, and none of them is longer.

How long the instructions are is left to the assembler. No `push` and no `jmp` takes more than five
bytes.

## Main definitions

* `IdtEntry`, `initIdt`, `initIdtWithStackTable` — the code
* `gateOf`, `idtGate` — how the processor reads an interrupt gate
* `AsmLine`, `assemble` — the places of labels in an assembled file
* `initGdt`, `systemSegmentOf` — the GDT of the kernel, and how the processor reads a descriptor of
  a TSS

## Main results

* `idt_dispatch` — every vector has a gate to its own stub
* `gdt_dispatch` — every CPU has a descriptor of its own `struct tss`
-/

namespace GoofyOs

/-! ### Interrupt gates -/

/-- `struct idt_entry`. -/
structure IdtEntry where
  isrLow : BitVec 16
  kernelCs : BitVec 16
  ist : BitVec 8
  attributes : BitVec 8
  isrMid : BitVec 16
  isrHigh : BitVec 32
  reserved : BitVec 32

/-- `idt_table`. -/
abbrev IdtTable := Fin 256 → IdtEntry

/-- What `__idt_set_entry` writes. -/
def idtEntry (handler : BitVec 64) (flags ist : BitVec 8) : IdtEntry where
  isrLow := (handler &&& 0xFFFF).setWidth 16
  kernelCs := 0x08
  ist := ist
  attributes := flags
  isrMid := (handler >>> 16 &&& 0xFFFF).setWidth 16
  isrHigh := (handler >>> 32 &&& 0xFFFFFFFF).setWidth 32
  reserved := 0

/-- `__idt_set_entry`, whose `idx` is a `uint8_t`. -/
def idtSetEntry (idx : ℕ) (handler : BitVec 64) (flags ist : BitVec 8) (table : IdtTable) :
    IdtTable :=
  Function.update table (Fin.ofNat 256 idx) (idtEntry handler flags ist)

/-- A loop of `init_idt` over the vectors from `lo` on. -/
def idtFill (vector0 : BitVec 64) (ist : BitVec 8) (lo n : ℕ) (table : IdtTable) : IdtTable :=
  (List.range' lo n).foldl
    (fun table i => idtSetEntry i (vector0 + .ofNat 64 (i * 16)) 0x8E ist table) table

/-- `init_idt`, where `vector0` is the address of `isr_vector_0_handler`. -/
def initIdt (vector0 : BitVec 64) (table : IdtTable) : IdtTable :=
  idtFill vector0 0 0x20 (256 - 0x20) (idtFill vector0 0 0 0x20 table)

/-- `init_idt_with_stack_table`. -/
def initIdtWithStackTable (vector0 : BitVec 64) (table : IdtTable) : IdtTable :=
  idtFill vector0 2 0x20 (256 - 0x20) (idtFill vector0 1 0 0x20 table)

/-- `idt_register.limit`. -/
def idtLimit : BitVec 16 := 256 * 16 - 1

/-- The two quadwords of a packed `struct idt_entry`. -/
def IdtEntry.quads (e : IdtEntry) : BitVec (16 + (8 + (8 + (16 + 16)))) × BitVec (32 + 32) :=
  (e.isrMid ++ (e.attributes ++ (e.ist ++ (e.kernelCs ++ e.isrLow))), e.reserved ++ e.isrHigh)

/-- What the processor makes of a gate. -/
structure Gate where
  offset : BitVec 64
  selector : BitVec 16
  ist : BitVec 3
  type : BitVec 4
  dpl : BitVec 2
  present : Bool
  deriving DecidableEq

/-- Reading a gate. -/
def gateOf (q : BitVec 64 × BitVec 64) : Gate where
  offset := q.2.extractLsb' 0 32 ++ q.1.extractLsb' 48 16 ++ q.1.extractLsb' 0 16
  selector := q.1.extractLsb' 16 16
  ist := q.1.extractLsb' 32 3
  type := q.1.extractLsb' 40 4
  dpl := q.1.extractLsb' 45 2
  present := q.1.getLsbD 47

/-- The gate of a vector, if it is below the limit. -/
def idtGate (limit : BitVec 16) (table : IdtTable) (v : Fin 256) : Option Gate :=
  if 16 * v.val + 15 ≤ limit.toNat then some (gateOf (table v).quads) else none

/-! ### Labels -/

/-- A line of an assembly file. -/
inductive AsmLine
  | align (n : ℕ)
  | label (v : ℕ)
  | instr (i : Instr)
  | jmp

/-- The labels of a file and their places, when it is assembled from `pos` on. -/
def assemble (len : AsmLine → ℕ) : ℕ → List AsmLine → List (ℕ × ℕ)
  | _, [] => []
  | pos, .align n :: ls => assemble len ((pos + n - 1) / n * n) ls
  | pos, .label v :: ls => (v, pos) :: assemble len pos ls
  | pos, l :: ls => assemble len (pos + len l) ls

/-- The pushes of the stub of vector `n`. -/
def stubPushes (n : ℕ) : List Instr :=
  (if n ∈ stubsWithError then [] else [.pushImm 0]) ++ [.pushImm (.ofNat 64 n)]

/-- The lines of the stub of vector `n`. -/
def stubLines (n : ℕ) : List AsmLine :=
  [.align 16, .label n] ++ (stubPushes n).map .instr ++ [.jmp]

/-- The stubs of `generic-stub.asm`. -/
def genericStub : List AsmLine := (List.range 256).flatMap stubLines

/-! ### Segment descriptors -/

/-- `gdt_table` after `init_gdt`. -/
def initGdt : List (BitVec 64) :=
  [0x0000000000000000, 0x00AF9A000000FFFF, 0x00CF92000000FFFF, 0x00AFFA000000FFFF,
    0x00CFF2000000FFFF] ++ List.replicate 250 0

/-- `gdt_register.limit`. -/
def gdtLimit : ℕ := 255 * 8 - 1

/-- What the processor makes of a code or data segment. -/
structure Segment where
  type : BitVec 4
  codeOrData : Bool
  dpl : BitVec 2
  present : Bool
  long : Bool
  deriving DecidableEq

/-- Reading a code or data segment. -/
def segmentOf (lo : BitVec 64) : Segment where
  type := lo.extractLsb' 40 4
  codeOrData := lo.getLsbD 44
  dpl := lo.extractLsb' 45 2
  present := lo.getLsbD 47
  long := lo.getLsbD 53

/-- What the processor makes of the two quadwords of a TSS descriptor. -/
structure SystemSegment where
  base : BitVec 64
  limit : BitVec 20
  type : BitVec 4
  codeOrData : Bool
  dpl : BitVec 2
  present : Bool
  granularity : Bool

/-- Reading a TSS descriptor. -/
def systemSegmentOf (lo hi : BitVec 64) : SystemSegment where
  base := hi.extractLsb' 0 32 ++ lo.extractLsb' 56 8 ++ lo.extractLsb' 16 24
  limit := lo.extractLsb' 48 4 ++ lo.extractLsb' 0 16
  type := lo.extractLsb' 40 4
  codeOrData := lo.getLsbD 44
  dpl := lo.extractLsb' 45 2
  present := lo.getLsbD 47
  granularity := lo.getLsbD 55

/-- The code behind label `n` is that of the vector. -/
theorem isrVector_eq (n : ℕ) : isrVector n = stubPushes n ++ isrGenericStub := rfl

section Gate

variable {table : IdtTable} {vector0 handler : BitVec 64} {flags ist : BitVec 8} {i lo n : ℕ}

/-- **Reading a gate**: the fields of the packed structure. -/
theorem gateOf_quads (e : IdtEntry) : gateOf e.quads =
    { offset := e.isrHigh ++ e.isrMid ++ e.isrLow
      selector := e.kernelCs
      ist := e.ist.extractLsb' 0 3
      type := e.attributes.extractLsb' 0 4
      dpl := e.attributes.extractLsb' 5 2
      present := e.attributes.getLsbD 7 } := by
  have hlow : e.quads.1.extractLsb' 0 16 = e.isrLow ∧ e.quads.1.extractLsb' 48 16 = e.isrMid ∧
      e.quads.2.extractLsb' 0 32 = e.isrHigh ∧ e.quads.1.extractLsb' 16 16 = e.kernelCs := by
    simp only [IdtEntry.quads, BitVec.extractLsb'_append_eq_ite]
    simp
  have hattr : e.quads.1.extractLsb' 32 3 = e.ist.extractLsb' 0 3 ∧
      e.quads.1.extractLsb' 40 4 = e.attributes.extractLsb' 0 4 ∧
      e.quads.1.extractLsb' 45 2 = e.attributes.extractLsb' 5 2 ∧
      e.quads.1.getLsbD 47 = e.attributes.getLsbD 7 := by
    simp only [IdtEntry.quads, BitVec.extractLsb'_append_eq_ite, BitVec.getLsbD_append]
    simp
  obtain ⟨hlow, hmid, hhigh, hcs⟩ := hlow
  rw [gateOf, Gate.mk.injEq]
  exact ⟨congrArg₂ (· ++ ·) (congrArg₂ (· ++ ·) hhigh hmid) hlow, hcs, hattr⟩

/-- **The address that was taken apart is put together.** -/
theorem gateOf_idtEntry (handler : BitVec 64) (ist : BitVec 8) :
    gateOf (idtEntry handler 0x8E ist).quads =
      ⟨handler, 0x08, ist.extractLsb' 0 3, 0xE, 0, true⟩ := by
  have hlow : (handler &&& 0xFFFF).setWidth 16 = handler.extractLsb' 0 16 := by
    rw [BitVec.setWidth_and, show (0xFFFF : BitVec 64).setWidth 16 = BitVec.allOnes 16 by decide,
      BitVec.and_allOnes]
    rfl
  have hmid : (handler >>> 16 &&& 0xFFFF).setWidth 16 = handler.extractLsb' 16 16 := by
    rw [BitVec.setWidth_and, show (0xFFFF : BitVec 64).setWidth 16 = BitVec.allOnes 16 by decide,
      BitVec.and_allOnes]
    rfl
  have hhigh : (handler >>> 32 &&& 0xFFFFFFFF).setWidth 32 = handler.extractLsb' 32 32 := by
    rw [BitVec.setWidth_and,
      show (0xFFFFFFFF : BitVec 64).setWidth 32 = BitVec.allOnes 32 by decide, BitVec.and_allOnes]
    rfl
  have hjoin : handler.extractLsb' 32 32 ++ handler.extractLsb' 16 16 ++ handler.extractLsb' 0 16 =
      handler := by
    have hupper : handler.extractLsb' 32 32 ++ handler.extractLsb' 16 16 =
        handler.extractLsb' 16 (32 + 16) := BitVec.extractLsb'_append_extractLsb'_eq_extractLsb' rfl
    have hall : handler.extractLsb' 16 (32 + 16) ++ handler.extractLsb' 0 16 =
        handler.extractLsb' 0 (32 + 16 + 16) :=
      BitVec.extractLsb'_append_extractLsb'_eq_extractLsb' rfl
    rw [hupper, hall]
    exact BitVec.extractLsb'_eq_self
  rw [gateOf_quads, idtEntry, Gate.mk.injEq]
  exact ⟨by simpa only [hlow, hmid, hhigh] using hjoin, rfl, rfl,
    (by decide : (0x8E : BitVec 8).extractLsb' 0 4 = 0xE),
    (by decide : (0x8E : BitVec 8).extractLsb' 5 2 = 0),
    (by decide : (0x8E : BitVec 8).getLsbD 7 = true)⟩

/-- **One loop** writes the entries of its vectors. -/
theorem idtFill_apply (h : lo + n ≤ 256) (v : Fin 256) : idtFill vector0 ist lo n table v =
    if lo ≤ v.val ∧ v.val < lo + n then idtEntry (vector0 + .ofNat 64 (v.val * 16)) 0x8E ist
    else table v := by
  induction n with
  | zero => rw [if_neg (by omega)]; rfl
  | succ n ih =>
    have hidx : (Fin.ofNat 256 (lo + n)).val = lo + n := Nat.mod_eq_of_lt (by omega)
    rw [idtFill, List.range'_1_concat, List.foldl_concat, ← idtFill, idtSetEntry]
    by_cases hv : v = Fin.ofNat 256 (lo + n)
    · have hval : v.val = lo + n := by rw [hv, hidx]
      rw [if_pos (by omega), hval, hv, Function.update_self]
    · have hval : v.val ≠ lo + n := fun hval => hv (Fin.ext (hval.trans hidx.symm))
      rw [Function.update_of_ne hv, ih (by omega)]
      exact if_congr (by omega) rfl rfl

end Gate

section Layout

variable {len : AsmLine → ℕ} {pos n k v : ℕ} {ls : List AsmLine}

/-- One stub: its label is at the next multiple of 16, and it ends before the one behind that. -/
theorem assemble_stubLines (hlen : ∀ l, 1 ≤ len l ∧ len l ≤ 5) (pos n : ℕ) (ls : List AsmLine) :
    ∃ size, 1 ≤ size ∧ size ≤ 16 ∧ assemble len pos (stubLines n ++ ls) =
      (n, (pos + 16 - 1) / 16 * 16) :: assemble len ((pos + 16 - 1) / 16 * 16 + size) ls := by
  have hpush (v : BitVec 64) := hlen (.instr (.pushImm v))
  have hjmp := hlen .jmp
  by_cases hn : n ∈ stubsWithError
  · refine ⟨len (.instr (.pushImm (.ofNat 64 n))) + len .jmp, ?_, ?_, ?_⟩
    · have := hpush (.ofNat 64 n)
      omega
    · have := hpush (.ofNat 64 n)
      omega
    · rw [stubLines, stubPushes, if_pos hn, ← Nat.add_assoc]
      rfl
  · refine ⟨len (.instr (.pushImm 0)) + len (.instr (.pushImm (.ofNat 64 n))) + len .jmp,
      ?_, ?_, ?_⟩
    · have := hpush (.ofNat 64 n)
      omega
    · have h0 := hpush 0
      have := hpush (.ofNat 64 n)
      omega
    · rw [stubLines, stubPushes, if_neg hn, ← Nat.add_assoc, ← Nat.add_assoc]
      rfl

/-- **The stubs lie 16 bytes apart.** -/
theorem assemble_flatMap (hlen : ∀ l, 1 ≤ len l ∧ len l ≤ 5) (pos k n : ℕ) :
    assemble len pos ((List.range' k n).flatMap stubLines) =
      (List.range' k n).map fun v => (v, (pos + 16 - 1) / 16 * 16 + 16 * (v - k)) := by
  induction n generalizing pos k with
  | zero => rfl
  | succ n ih =>
    obtain ⟨size, hpos, hle, hstub⟩ := assemble_stubLines hlen pos k
      ((List.range' (k + 1) n).flatMap stubLines)
    have hnext : ((pos + 16 - 1) / 16 * 16 + size + 16 - 1) / 16 * 16 =
        (pos + 16 - 1) / 16 * 16 + 16 := by omega
    rw [List.range'_succ, List.flatMap_cons, hstub, ih, List.map_cons, hnext, Nat.sub_self]
    refine congrArg _ (List.map_congr_left fun v hv => ?_)
    have hkv : k + 1 ≤ v := (List.mem_range'_1.mp hv).1
    refine Prod.ext rfl ?_
    show (pos + 16 - 1) / 16 * 16 + 16 + 16 * (v - (k + 1)) =
      (pos + 16 - 1) / 16 * 16 + 16 * (v - k)
    omega

end Layout

/-- **Every vector has a gate to its own stub**: an interrupt gate in the kernel's code segment, on
the interrupted stack after `init_idt`, and on one of two stacks of the TSS after
`init_idt_with_stack_table`. -/
theorem idt_dispatch {len : AsmLine → ℕ} (hlen : ∀ l, 1 ≤ len l ∧ len l ≤ 5) (pos : ℕ) :
    ∃ addr : ℕ → ℕ, assemble len pos genericStub = (List.range 256).map (fun v => (v, addr v)) ∧
      ∀ (table : IdtTable) (v : Fin 256),
        idtGate idtLimit (initIdt (.ofNat 64 (addr 0)) table) v =
          some ⟨.ofNat 64 (addr v), 0x08, 0, 0xE, 0, true⟩ ∧
        idtGate idtLimit (initIdtWithStackTable (.ofNat 64 (addr 0)) table) v =
          some ⟨.ofNat 64 (addr v), 0x08, if v.val < 0x20 then 1 else 2, 0xE, 0, true⟩ := by
  refine ⟨fun v => (pos + 16 - 1) / 16 * 16 + 16 * v, ?_, fun table v => ?_⟩
  · rw [genericStub, List.range_eq_range', assemble_flatMap hlen]
    rfl
  · have hlim : 16 * v.val + 15 ≤ idtLimit.toNat := by
      have hval : idtLimit.toNat = 4095 := by decide
      have hv := v.isLt
      omega
    have haddr : BitVec.ofNat 64 ((pos + 16 - 1) / 16 * 16 + 16 * 0) + .ofNat 64 (v.val * 16) =
        .ofNat 64 ((pos + 16 - 1) / 16 * 16 + 16 * v.val) := by
      have hsum : (pos + 16 - 1) / 16 * 16 + 16 * 0 + v.val * 16 =
          (pos + 16 - 1) / 16 * 16 + 16 * v.val := by omega
      rw [← BitVec.ofNat_add, hsum]
    have hfill {vector0 : BitVec 64} {ist ist' : BitVec 8} :
        idtFill vector0 ist' 0x20 (256 - 0x20) (idtFill vector0 ist 0 0x20 table) v =
          idtEntry (vector0 + .ofNat 64 (v.val * 16)) 0x8E (if v.val < 0x20 then ist else ist') := by
      rw [idtFill_apply (by decide), idtFill_apply (by decide)]
      have hv := v.isLt
      split_ifs <;> first | rfl | omega
    rw [idtGate, idtGate, if_pos hlim, if_pos hlim, initIdt, initIdtWithStackTable, hfill, hfill,
      gateOf_idtEntry, gateOf_idtEntry, haddr]
    refine ⟨?_, ?_⟩
    · split_ifs <;> rfl
    · split_ifs <;> rfl

theorem idt_dispatch_five : ∃ addr : ℕ → ℕ,
    assemble (fun _ => 5) 0 genericStub = (List.range 256).map (fun v => (v, addr v)) ∧
      ∀ (table : IdtTable) (v : Fin 256),
        idtGate idtLimit (initIdt (.ofNat 64 (addr 0)) table) v =
          some ⟨.ofNat 64 (addr v), 0x08, 0, 0xE, 0, true⟩ ∧
        idtGate idtLimit (initIdtWithStackTable (.ofNat 64 (addr 0)) table) v =
          some ⟨.ofNat 64 (addr v), 0x08, if v.val < 0x20 then 1 else 2, 0xE, 0, true⟩ :=
  idt_dispatch (fun _ => by decide) 0

section Tss

variable {mp : MpResponse} {s s' : CpuTables} {taskSeg : ℕ → BitVec 64} {i n : ℕ}

/-- **The base of a TSS descriptor** is put together again. -/
theorem systemSegmentOf_tssDesc (base : BitVec 64) :
    systemSegmentOf (tssDesc base).1 (tssDesc base).2 = ⟨base, 103, 9, false, 0, true, false⟩ := by
  have hlow : (tssDesc base).1.extractLsb' 16 24 = base.extractLsb' 0 24 := by
    ext i hi
    interval_cases i <;> simp [tssDesc]
  have hmid : (tssDesc base).1.extractLsb' 56 8 = base.extractLsb' 24 8 := by
    ext i hi
    interval_cases i <;> simp [tssDesc]
  have hhigh : (tssDesc base).2.extractLsb' 0 32 = base.extractLsb' 32 32 := by
    ext i hi
    simp [tssDesc]
  have hlim : (tssDesc base).1.extractLsb' 0 16 = 103 ∧ (tssDesc base).1.extractLsb' 48 4 = 0 := by
    constructor <;> ext i hi <;> interval_cases i <;> simp [tssDesc]
  have hattr : (tssDesc base).1.extractLsb' 40 4 = 9 ∧ (tssDesc base).1.extractLsb' 45 2 = 0 := by
    constructor <;> ext i hi <;> interval_cases i <;> simp [tssDesc]
  have hbits : (tssDesc base).1.getLsbD 44 = false ∧ (tssDesc base).1.getLsbD 47 = true ∧
      (tssDesc base).1.getLsbD 55 = false := by
    simp [tssDesc]
  have hupper : base.extractLsb' 32 32 ++ base.extractLsb' 24 8 = base.extractLsb' 24 (32 + 8) :=
    BitVec.extractLsb'_append_extractLsb'_eq_extractLsb' rfl
  have hall : base.extractLsb' 24 (32 + 8) ++ base.extractLsb' 0 24 =
      base.extractLsb' 0 (32 + 8 + 24) := BitVec.extractLsb'_append_extractLsb'_eq_extractLsb' rfl
  rw [systemSegmentOf, hlow, hmid, hhigh, hlim.1, hlim.2, hattr.1, hattr.2, hbits.1, hbits.2.1,
    hbits.2.2, SystemSegment.mk.injEq]
  refine ⟨?_, by decide, rfl, rfl, rfl, rfl, rfl⟩
  rw [hupper, hall]
  exact BitVec.extractLsb'_eq_self

/-- The loop of `tss_init` leaves the descriptors of `init_gdt`. -/
theorem fillTss_low {s s' : CpuTables × ℕ} (h : CpuTables.fillTss taskSeg s n = some s')
    (hidx : 5 ≤ s.2) (hi : i < 5) : 5 ≤ s'.2 ∧ s'.1.gdtTable[i]? = s.1.gdtTable[i]? := by
  obtain ⟨s, gdtIdx⟩ := s
  have hidx' : 5 ≤ gdtIdx := hidx
  simp only [CpuTables.fillTss, CpuTables.store, Option.bind_eq_bind, Option.bind_eq_some_iff] at h
  obtain ⟨core, -, cores, -, g₁, hg₁, g₂, hg₂, hs'⟩ := h
  split_ifs at hg₁ hg₂
  rw [← Option.some.inj hs', ← Option.some.inj hg₂, ← Option.some.inj hg₁]
  refine ⟨by omega, ?_⟩
  rw [List.getElem?_set_ne (by omega), List.getElem?_set_ne (by omega)]

theorem tssInit_low (h : CpuTables.tssInit mp taskSeg s = some s') (hi : i < 5) :
    s'.gdtTable[i]? = s.gdtTable[i]? := by
  have hloop (n : ℕ) (r : CpuTables × ℕ)
      (hr : (List.range n).foldlM (CpuTables.fillTss taskSeg) (s, 5) = some r) :
      5 ≤ r.2 ∧ r.1.gdtTable[i]? = s.gdtTable[i]? := by
    induction n generalizing r with
    | zero =>
      obtain rfl := Option.some.inj hr
      exact ⟨le_rfl, rfl⟩
    | succ n ih =>
      rw [List.range_succ, List.foldlM_append, Option.bind_eq_bind, Option.bind_eq_some_iff] at hr
      obtain ⟨r₁, hr₁, hr⟩ := hr
      obtain ⟨hidx, hkept⟩ := ih r₁ hr₁
      rw [List.foldlM_cons, Option.bind_eq_bind, Option.bind_eq_some_iff] at hr
      obtain ⟨r₂, hr₂, hr⟩ := hr
      obtain rfl := Option.some.inj hr
      obtain ⟨hidx', hkept'⟩ := fillTss_low hr₂ hidx hi
      exact ⟨hidx', hkept'.trans hkept⟩
  obtain ⟨r, hr, rfl⟩ := Option.map_eq_some_iff.mp h
  exact (hloop _ r hr).2

end Tss

/-- **Every CPU has a descriptor of its own `struct tss`**, at the selector that it loads, and the
selector of all gates is that of a 64-bit code segment. -/
theorem gdt_dispatch (mp : MpResponse) (taskSeg : ℕ → BitVec 64)
    (hN : mp.nCpus.toNat ≤ maxCpus) :
    ∃ s, mp.boot taskSeg initGdt = some s ∧
      (∀ i < mp.nCpus.toNat, ∃ lo hi, s.gdtTable[tssSelector i / 8]? = some lo ∧
        s.gdtTable[tssSelector i / 8 + 1]? = some hi ∧ tssSelector i + 15 ≤ gdtLimit ∧
        systemSegmentOf lo hi = ⟨taskSeg i, 103, 9, false, 0, true, false⟩) ∧
      s.gdtTable[0x08 / 8]?.map segmentOf = some ⟨0xA, true, 0, true, true⟩ ∧
      s.gdtTable[0x10 / 8]?.map segmentOf = some ⟨0x2, true, 0, true, false⟩ ∧
      s.gdtTable[0x18 / 8]?.map segmentOf = some ⟨0xA, true, 3, true, true⟩ ∧
      s.gdtTable[0x20 / 8]?.map segmentOf = some ⟨0x2, true, 3, true, false⟩ := by
  have hgdt : initGdt.length = 255 := by
    rw [initGdt, List.length_append, List.length_replicate]
    rfl
  have hmax : maxCpus = 16 := rfl
  obtain ⟨s₁, hs₁, hfilled⟩ := (CpuTables.limineInit_spec mp initGdt).1 hN
  obtain ⟨s, gdtIdx, hs, htss⟩ := CpuTables.tssInit_spec taskSeg hfilled hgdt hN
  have hlow (i : ℕ) (hi : i < 5) : s.gdtTable[i]? = initGdt[i]? := by
    rw [tssInit_low hs hi, hfilled.gdtTable]
  refine ⟨s, ?_, fun i hi => ?_, ?_, ?_, ?_, ?_⟩
  · rw [MpResponse.boot, hs₁, Option.bind_eq_bind, Option.bind_some, hs]
  · obtain ⟨hlo, hhi⟩ := htss.gdt i hi
    have hsel : tssSelector i = 8 * (5 + 2 * i) := by
      rw [tssSelector, Nat.mod_eq_of_lt (by omega)]
      omega
    have hidx : tssSelector i / 8 = 5 + 2 * i := by omega
    refine ⟨_, _, hidx ▸ hlo, hidx ▸ hhi, ?_, systemSegmentOf_tssDesc _⟩
    rw [hsel, gdtLimit]
    omega
  · rw [hlow 1 (by omega)]
    rfl
  · rw [hlow 2 (by omega)]
    rfl
  · rw [hlow 3 (by omega)]
    rfl
  · rw [hlow 4 (by omega)]
    rfl

/-- The state segments of two CPUs. -/
def twoTaskSegs (i : ℕ) : BitVec 64 := if i = 0 then 0xffffffff80200000 else 0xffffffff80300068

theorem gdt_dispatch_two : ∃ s, (twoCpus 1 (by decide)).boot twoTaskSegs initGdt = some s ∧
    (∀ i < (twoCpus 1 (by decide)).nCpus.toNat, ∃ lo hi,
      s.gdtTable[tssSelector i / 8]? = some lo ∧ s.gdtTable[tssSelector i / 8 + 1]? = some hi ∧
      tssSelector i + 15 ≤ gdtLimit ∧
      systemSegmentOf lo hi = ⟨twoTaskSegs i, 103, 9, false, 0, true, false⟩) ∧
    s.gdtTable[0x08 / 8]?.map segmentOf = some ⟨0xA, true, 0, true, true⟩ ∧
    s.gdtTable[0x10 / 8]?.map segmentOf = some ⟨0x2, true, 0, true, false⟩ ∧
    s.gdtTable[0x18 / 8]?.map segmentOf = some ⟨0xA, true, 3, true, true⟩ ∧
    s.gdtTable[0x20 / 8]?.map segmentOf = some ⟨0x2, true, 3, true, false⟩ :=
  gdt_dispatch (twoCpus 1 (by decide)) twoTaskSegs (by rw [nCpus_twoCpus]; decide)

end GoofyOs
