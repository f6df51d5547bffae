import Mathlib.Data.BitVec

/-!
# Four-level paging

How the processor translates an address through page tables on four levels. A table has 512 entries
of eight bytes, and the level above the pages is level 0. The memory is what is read at a physical
address.

An entry on level 1 or 2 with the page-size bit maps a large page. On level 3 the bit is reserved,
and an entry with it maps nothing. Access rights are left out.

## Main definitions

* `FourLevelPaging.walk`, `FourLevelPaging.translate` — the translation

## Main results

* `FourLevelPaging.walk_of_absent`, `FourLevelPaging.walk_of_table` — one level of the walk
* `FourLevelPaging.walk_congr` — the addresses of a page are translated to one frame
-/

namespace GoofyOs

namespace FourLevelPaging

/-- The bit of an entry that is present. -/
def presentBit : BitVec 64 := 0x1

/-- The page-size bit. -/
def sizeBit : BitVec 64 := 0x80

/-- The bits of an entry that are an address. -/
def addressMask : BitVec 64 := 0xffffffffff000

/-- The bytes that an entry on a level maps. -/
def span (level : ℕ) : BitVec 64 := 1 <<< (12 + 9 * level)

/-- The index of an address into a table. -/
def index (level : ℕ) (v : BitVec 64) : BitVec 64 := v >>> (12 + 9 * level) &&& 0x1ff

/-- The offset of an address in what an entry maps. -/
def offset (level : ℕ) (v : BitVec 64) : BitVec 64 := v &&& (span level - 1)

variable (read : BitVec 64 → BitVec 64) (v : BitVec 64)

/-- The entry for an address in the table at a physical address. -/
def entry (level : ℕ) (table : BitVec 64) : BitVec 64 := read (table + 8 * index level v)

/-- The walk from a table on. -/
def walk : ℕ → BitVec 64 → Option (BitVec 64)
  | 0, table =>
    let e := entry read v 0 table
    if e &&& presentBit = 0 then none else some ((e &&& addressMask) + offset 0 v)
  | level + 1, table =>
    let e := entry read v (level + 1) table
    if e &&& presentBit = 0 then none
    else if e &&& sizeBit = 0 then walk level (e &&& addressMask)
    else if level + 1 = 3 then none
    else some ((e &&& addressMask &&& ~~~(span (level + 1) - 1)) + offset (level + 1) v)

/-- The physical address of an address. -/
def translate (cr3 : BitVec 64) : Option (BitVec 64) := walk read v 3 (cr3 &&& addressMask)

variable {read v} {level : ℕ} {table v' : BitVec 64}

theorem walk_zero : walk read v 0 table =
    if entry read v 0 table &&& presentBit = 0 then none
    else some ((entry read v 0 table &&& addressMask) + offset 0 v) := rfl

/-- An entry that is not present maps nothing. -/
theorem walk_of_absent (h : entry read v level table &&& presentBit = 0) :
    walk read v level table = none := by
  cases level with
  | zero => exact if_pos h
  | succ level => exact if_pos h

/-- An entry without the page-size bit points to a table. -/
theorem walk_of_table (h : entry read v (level + 1) table &&& presentBit ≠ 0)
    (hsize : entry read v (level + 1) table &&& sizeBit = 0) :
    walk read v (level + 1) table =
      walk read v level (entry read v (level + 1) table &&& addressMask) :=
  (if_neg h).trans (if_pos hsize)

/-! ### The addresses of a page -/

theorem index_congr (h : v >>> 12 = v' >>> 12) (level : ℕ) : index level v = index level v' := by
  rw [index, index, BitVec.shiftRight_add, BitVec.shiftRight_add, h]

theorem entry_congr (h : v >>> 12 = v' >>> 12) (level : ℕ) (table : BitVec 64) :
    entry read v level table = entry read v' level table := by
  rw [entry, entry, index_congr h]

/-- A base on a page boundary and an offset: the frame depends on the frame of the address. -/
theorem ushiftRight_add_offset {base : BitVec 64} (hbase : base &&& 0xfff = 0)
    (h : v >>> 12 = v' >>> 12) (level : ℕ) :
    (base + offset level v) >>> 12 = (base + offset level v') >>> 12 := by
  have hoff : offset level v >>> 12 = offset level v' >>> 12 := by
    rw [offset, offset, BitVec.ushiftRight_and_distrib, BitVec.ushiftRight_and_distrib, h]
  have hmod : base.toNat % 4096 = 0 := by
    have hand := congrArg BitVec.toNat hbase
    rw [BitVec.toNat_and] at hand
    rw [← Nat.and_two_pow_sub_one_eq_mod base.toNat 12]
    exact hand
  have hoff := congrArg BitVec.toNat hoff
  rw [BitVec.toNat_ushiftRight, BitVec.toNat_ushiftRight, Nat.shiftRight_eq_div_pow,
    Nat.shiftRight_eq_div_pow] at hoff
  apply BitVec.eq_of_toNat_eq
  rw [BitVec.toNat_ushiftRight, BitVec.toNat_ushiftRight, BitVec.toNat_add, BitVec.toNat_add,
    Nat.shiftRight_eq_div_pow, Nat.shiftRight_eq_div_pow]
  omega

theorem addressMask_and (x y : BitVec 64) : x &&& addressMask &&& y &&& 0xfff = 0 := by
  rw [BitVec.and_assoc, BitVec.and_comm y, ← BitVec.and_assoc, BitVec.and_assoc x,
    show addressMask &&& 0xfff = 0 by decide]
  simp

/-- **The addresses of a page are translated to one frame**, or none of them is. -/
theorem walk_congr (h : v >>> 12 = v' >>> 12) (level : ℕ) (table : BitVec 64) :
    (walk read v level table).map (fun p : BitVec 64 => p >>> 12) =
      (walk read v' level table).map (fun p : BitVec 64 => p >>> 12) := by
  induction level generalizing table with
  | zero =>
    rw [walk_zero, walk_zero, entry_congr h]
    split
    · rfl
    · have hbase := addressMask_and (entry read v' 0 table) (~~~0)
      rw [show ~~~(0 : BitVec 64) = BitVec.allOnes 64 by decide, BitVec.and_allOnes] at hbase
      exact congrArg some (ushiftRight_add_offset hbase h 0)
  | succ level ih =>
    rw [walk, walk, entry_congr h]
    split
    · rfl
    split
    · exact ih _
    split
    · rfl
    · exact congrArg some (ushiftRight_add_offset (addressMask_and _ _) h (level + 1))

end FourLevelPaging

end GoofyOs
