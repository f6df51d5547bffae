import GoofyOs.HashmapHeap
import GoofyOs.Madt
import GoofyOs.VfsRun

/-!
# The check of an ELF header

`validate_elf` has one test for each thing that it asks of a header. The one for the magic number
takes the result of `memcmp` for a truth value, which is zero on equal strings, so that it turns
away just the headers that have the magic number.

A header is 64 bytes of memory.

## Main definitions

* `validateElf` — the code
* `ElfLiteral` — memory that has the string `ELFMAG` in it
* `ElfFields` — the fields of an executable for x86-64, all but the magic number

## Main results

* `validateElf_eq` — what it accepts
* `validateElf_accepts_iff` — when the answer is right
-/

namespace GoofyOs

/-- The characters of `ELFMAG`. -/
def elfmag : List UInt8 := [0x7f, 0x45, 0x4c, 0x46]

/-- `SELFMAG`. -/
def selfmag : ℕ := 4

/-- `EI_CLASS`. -/
def eiClass : ℕ := 4

/-- `EI_DATA`. -/
def eiData : ℕ := 5

/-- `ELFCLASS64`. -/
def elfclass64 : UInt8 := 2

/-- `ELFDATA2LSB`. -/
def elfdata2lsb : UInt8 := 1

/-- `EM_X86_64`. -/
def emX86_64 : ℕ := 62

/-- `EV_CURRENT`. -/
def evCurrent : ℕ := 1

/-- `ET_EXEC`. -/
def etExec : ℕ := 2

/-- Memory, with the string literal `ELFMAG` at an address. -/
structure ElfLiteral where
  mem : ℕ → UInt8
  magic : ℕ
  magic_eq : keyBytes mem magic selfmag = elfmag

/-- A little-endian `Elf64_Half`. -/
def readHalf (mem : ℕ → UInt8) (o : ℕ) : ℕ := (mem o).toNat + 2 ^ 8 * (mem (o + 1)).toNat

/-- `hdr->e_type`. -/
def eType (mem : ℕ → UInt8) (hdr : ℕ) : ℕ := readHalf mem (hdr + 16)

/-- `hdr->e_machine`. -/
def eMachine (mem : ℕ → UInt8) (hdr : ℕ) : ℕ := readHalf mem (hdr + 18)

/-- `hdr->e_version`. -/
def eVersion (mem : ℕ → UInt8) (hdr : ℕ) : ℕ := readU32 mem (hdr + 20)

/-- `validate_elf`. The size of the file is not looked at. -/
def validateElf (m : ElfLiteral) (exe : File) (hdr : ℕ) : VfsM Bool := do
  let _exeSize ← vfsSize exe
  if ¬ memcmp m.mem hdr m.magic selfmag ≠ 0 then return false
  if m.mem (hdr + eiClass) ≠ elfclass64 then return false
  if m.mem (hdr + eiData) ≠ elfdata2lsb then return false
  if eMachine m.mem hdr ≠ emX86_64 then return false
  if eVersion m.mem hdr ≠ evCurrent then return false
  if eType m.mem hdr ≠ etExec then return false
  return true

/-- The fields of an executable for x86-64, all but the magic number. -/
@[mk_iff] structure ElfFields (mem : ℕ → UInt8) (hdr : ℕ) : Prop where
  ident_class : mem (hdr + eiClass) = elfclass64
  ident_data : mem (hdr + eiData) = elfdata2lsb
  machine : eMachine mem hdr = emX86_64
  version : eVersion mem hdr = evCurrent
  type : eType mem hdr = etExec

/-- The magic number. -/
def HasMagic (mem : ℕ → UInt8) (hdr : ℕ) : Prop := keyBytes mem hdr selfmag = elfmag

/-- The right answer: what is accepted are the headers that have the magic number and all fields. -/
def Validates (m : ElfLiteral) (exe : File) (hdr : ℕ) (s : VfsState) : Prop :=
  ∃ b s', validateElf m exe hdr s = some (.ok b, s') ∧
    (b = true ↔ HasMagic m.mem hdr ∧ ElfFields m.mem hdr)

variable {s s' : VfsState} {size : ℕ} {exe : File}

/-- One test of `validate_elf`. -/
theorem reject {p ok : Prop} [Decidable p] {rest : VfsM Bool}
    (h : ∃ b, rest s = some (.ok b, s) ∧ (b = true ↔ ok)) :
    ∃ b, (if p then pure false else rest) s = some (.ok b, s) ∧ (b = true ↔ ¬ p ∧ ok) := by
  by_cases hp : p
  · rw [if_pos hp]
    exact ⟨false, rfl, ⟨fun h => (Bool.false_ne_true h).elim, fun h => absurd hp h.1⟩⟩
  · rw [if_neg hp]
    obtain ⟨b, hrest, hb⟩ := h
    exact ⟨b, hrest, hb.trans (and_iff_right hp).symm⟩

/-- **`validate_elf`** accepts what has all fields, and not the magic number. -/
theorem validateElf_eq (m : ElfLiteral) (hdr : ℕ)
    (hexe : vfsSize exe s = some (.ok size, s')) :
    ∃ b, validateElf m exe hdr s = some (.ok b, s') ∧
      (b = true ↔ ¬ HasMagic m.mem hdr ∧ ElfFields m.mem hdr) := by
  -- the tests in the order of the code
  have htests : ¬ HasMagic m.mem hdr ∧ ElfFields m.mem hdr ↔
      ¬ ¬ memcmp m.mem hdr m.magic selfmag ≠ 0 ∧ ¬ m.mem (hdr + eiClass) ≠ elfclass64 ∧
        ¬ m.mem (hdr + eiData) ≠ elfdata2lsb ∧ ¬ eMachine m.mem hdr ≠ emX86_64 ∧
          ¬ eVersion m.mem hdr ≠ evCurrent ∧ ¬ eType m.mem hdr ≠ etExec ∧ True := by
    rw [elfFields_iff, HasMagic, ← m.magic_eq, ← HmapState.memcmp_eq_zero]
    simp only [ne_eq, not_not, and_true]
  rw [validateElf, Proc.bind_ok hexe, htests]
  exact reject (reject (reject (reject (reject (reject ⟨true, rfl, iff_of_true rfl trivial⟩)))))

/-- **The answer is right** just when one of the fields is not as it should be: the file is turned
away then, for that field. -/
theorem validates_iff (m : ElfLiteral) (exe : File) (hdr size : ℕ) (s s' : VfsState)
    (hexe : vfsSize exe s = some (.ok size, s')) :
    Validates m exe hdr s ↔ ¬ ElfFields m.mem hdr := by
  obtain ⟨b, hrun, hb⟩ := validateElf_eq m hdr hexe
  constructor
  · rintro ⟨b', s₁, hrun', hb'⟩ hfields
    rw [hrun] at hrun'
    cases hrun'
    have hnot := hb.symm.trans hb'
    simp only [hfields, and_true] at hnot
    exact not_iff_self hnot
  · intro hfields
    refine ⟨b, s', hrun, hb.trans ?_⟩
    simp only [hfields, and_false]

/-- A header of an executable for x86-64 at address zero, and the string behind it. -/
def elfLiteral : ElfLiteral where
  mem a := if a < 64 then
    (elfmag ++ [2, 1, 1, 0, 0, 0, 0, 0, 0, 0, 0, 0, 2, 0, 62, 0, 1, 0, 0, 0]).getD a 0
    else elfmag.getD (a - 64) 0
  magic := 64
  magic_eq := by decide

theorem vfsSize_initVfs : vfsSize ⟨0, 0, 0⟩ initVfs = some (.ok 0, initVfs) := rfl

/-- A header with the magic number, of a relocatable file, at address zero. -/
def relocatableLiteral : ElfLiteral where
  mem a := if a = 16 then 1 else elfLiteral.mem a
  magic := 64
  magic_eq := by decide

/-- The header has the magic number and all fields but `e_type`, and is turned away. -/
theorem validates_iff_relocatable : HasMagic relocatableLiteral.mem 0 ∧
    eType relocatableLiteral.mem 0 = 1 ∧ Validates relocatableLiteral ⟨0, 0, 0⟩ 0 initVfs := by
  have hmagic : HasMagic relocatableLiteral.mem 0 := by
    rw [HasMagic]
    decide
  exact ⟨hmagic, by decide,
    (validates_iff relocatableLiteral ⟨0, 0, 0⟩ 0 0 initVfs initVfs vfsSize_initVfs).mpr fun h =>
      absurd h.type (by decide)⟩

/-- The header of an executable is turned away. -/
theorem not_validates : ¬ ∀ (m : ElfLiteral) (exe : File) (hdr size : ℕ) (s s' : VfsState),
    vfsSize exe s = some (.ok size, s') → Validates m exe hdr s := by
  intro h
  obtain ⟨b, s', hrun, hb⟩ := h elfLiteral ⟨0, 0, 0⟩ 0 0 initVfs initVfs vfsSize_initVfs
  have hmagic : HasMagic elfLiteral.mem 0 := by
    rw [HasMagic]
    decide
  have hfields : ElfFields elfLiteral.mem 0 :=
    ⟨by decide, by decide, by decide, by decide, by decide⟩
  obtain ⟨b', hrun', hb'⟩ := validateElf_eq elfLiteral 0 vfsSize_initVfs
  rw [hrun] at hrun'
  cases hrun'
  exact (hb'.mp (hb.mpr ⟨hmagic, hfields⟩)).1 hmagic

end GoofyOs
