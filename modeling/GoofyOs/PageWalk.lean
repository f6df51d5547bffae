import GoofyOs.ForMathlib.FourLevelPaging
import GoofyOs.MapperRun

/-!
# `virt_to_pfn` and the processor

`virt_to_pfn` walks the tables of the current CR3 as the processor does, up to four things. `PG_PS`
is bit 6, and the page-size bit of the processor is bit 7. At an entry with `PG_PS` the address is
returned and not the number of its frame. The bits from 52 to 62 are taken for a part of the
address. And on level 0 the entry is not asked whether it is present.

So a large page is taken for a table, and what it holds for entries. Where the walk does not stray
like this, `ReadsRight` says exactly on which pages the two agree.

## Main definitions

* `MapperState.archPfn` — the frame that the processor finds, or 0
* `MapperState.Straight` — the walk of `virt_to_pfn` stays in the tables
* `MapperState.ReadsRight` — it meets no `PG_PS` bit, and no entry that is left over on level 0

## Main results

* `virtToPfn_agrees_iff` — the two agree on a page if and only if the walk reads right
* `not_virtToPfn_agrees` — a large page
-/

namespace GoofyOs

open FourLevelPaging (addressMask presentBit sizeBit)

namespace MapperState

variable {P : PageSource} (s : MapperState P) (virt : BitVec 64)

/-- The word at a physical address. -/
def physRead (phys : BitVec 64) : BitVec 64 := s.mem (s.va phys)

/-- The number of the frame of an address, or 0 when there is none. -/
def pfnOf (phys : Option (BitVec 64)) : ℤ :=
  ((phys.map fun p : BitVec 64 => p >>> 12).getD 0).toNat

/-- The frame that the processor finds for an address. -/
def archPfn (cr3 : BitVec 64) : ℤ := pfnOf (FourLevelPaging.translate s.physRead virt cr3)

/-- No entry above level 0 that the walk of `virt_to_pfn` follows is a large page, or has a bit from
52 to 62. -/
def Straight : ℕ → BitVec 64 → Prop
  | 0, _ => True
  | level + 1, table =>
    let e := s.entry table (getIndex (level + 1) virt)
    e &&& pgPs = 0 → e &&& pgPresent ≠ 0 →
      e &&& sizeBit = 0 ∧ e &&& addrMask = e &&& addressMask ∧ Straight level (e &&& addrMask)

/-- No entry above level 0 that the walk meets has `PG_PS`, and the entry on level 0 that it ends
at is present or names no frame. -/
def ReadsRight : ℕ → BitVec 64 → Prop
  | 0, table =>
    let e := s.entry table (getIndex 0 virt)
    e &&& pgPresent ≠ 0 ∨ ((e &&& addrMask) >>> 12).setWidth 32 = 0
  | level + 1, table =>
    let e := s.entry table (getIndex (level + 1) virt)
    e &&& pgPs = 0 ∧ (e &&& pgPresent ≠ 0 → ReadsRight level (e &&& addrMask))

/-- What `virt_to_pfn` returns for the walk from a table on. -/
def pfnFrom (level : ℕ) (table : BitVec 64) : ℤ :=
  ((s.virtToPfnWalk virt level (slot (s.va table) (getIndex level virt))).setWidth 32).toInt

variable {s virt} {v cr3 table e : BitVec 64} {level : ℕ}

theorem entry_physRead (s : MapperState P) (virt : BitVec 64) (level : ℕ) (table : BitVec 64) :
    FourLevelPaging.entry s.physRead virt level table = s.entry table (getIndex level virt) := by
  have haddr : s.va (table + 8 * FourLevelPaging.index level virt) =
      slot (s.va table) (getIndex level virt) := by
    rw [va, va, slot, BitVec.add_assoc, BitVec.add_comm (8 * _), ← BitVec.add_assoc]
    rfl
  rw [FourLevelPaging.entry, physRead, haddr]
  rfl

/-! ### The two walks, level by level -/

theorem pfnFrom_zero (s : MapperState P) (virt table : BitVec 64) :
    s.pfnFrom virt 0 table =
      (((s.entry table (getIndex 0 virt) &&& addrMask) >>> 12).setWidth 32).toInt := by
  rw [pfnFrom, virtToPfnWalk, ushiftRight_pageEntry]
  rfl

theorem pfnFrom_succ (s : MapperState P) (virt : BitVec 64) (level : ℕ) (table : BitVec 64) :
    s.pfnFrom virt (level + 1) table =
      if s.entry table (getIndex (level + 1) virt) &&& pgPs ≠ 0 then
        (((s.entry table (getIndex (level + 1) virt) &&& addrMask) +
          virtOffset (level + 1) virt).setWidth 32).toInt
      else if s.entry table (getIndex (level + 1) virt) &&& pgPresent ≠ 0 then
        s.pfnFrom virt level (s.entry table (getIndex (level + 1) virt) &&& addrMask)
      else 0 := by
  let toInt (w : BitVec 64) : ℤ := (w.setWidth 32).toInt
  change toInt
    (s.virtToPfnWalk virt (level + 1) (slot (s.va table) (getIndex (level + 1) virt))) = _
  rw [virtToPfnWalk, apply_ite toInt, apply_ite toInt]
  rfl

/-- The frame that the processor finds from a table on. -/
def archFrom (s : MapperState P) (virt : BitVec 64) (level : ℕ) (table : BitVec 64) : ℤ :=
  pfnOf (FourLevelPaging.walk s.physRead virt level table)

theorem toNat_and_addressMask (x : BitVec 64) :
    (x &&& addressMask).toNat + x.toNat % 4096 = x.toNat % 2 ^ 52 :=
  toNat_and_mask x addressMask 52 (by decide) (by decide) (by decide)

theorem archFrom_of_absent (h : s.entry table (getIndex level virt) &&& pgPresent = 0) :
    s.archFrom virt level table = 0 := by
  rw [archFrom, FourLevelPaging.walk_of_absent ((entry_physRead s virt level table).symm ▸ h)]
  rfl

theorem archFrom_of_table (h : s.entry table (getIndex (level + 1) virt) &&& pgPresent ≠ 0)
    (hsize : s.entry table (getIndex (level + 1) virt) &&& sizeBit = 0) :
    s.archFrom virt (level + 1) table =
      s.archFrom virt level (s.entry table (getIndex (level + 1) virt) &&& addressMask) := by
  rw [← entry_physRead] at h hsize ⊢
  rw [archFrom, FourLevelPaging.walk_of_table h hsize]
  rfl

theorem archFrom_zero (h : s.entry table (getIndex 0 virt) &&& pgPresent ≠ 0) :
    s.archFrom virt 0 table =
      ((s.entry table (getIndex 0 virt) &&& addressMask).toNat / 4096 : ℕ) := by
  have hmask := toNat_and_addressMask (s.entry table (getIndex 0 virt))
  have hoff : (FourLevelPaging.offset 0 virt).toNat = virt.toNat % 4096 := toNat_and_fff virt
  rw [archFrom, FourLevelPaging.walk_zero, entry_physRead,
    if_neg (show _ &&& presentBit ≠ 0 from h), pfnOf]
  change ((((s.entry table (getIndex 0 virt) &&& addressMask) +
    FourLevelPaging.offset 0 virt) >>> 12).toNat : ℤ) = _
  rw [BitVec.toNat_ushiftRight, BitVec.toNat_add, hoff, Nat.shiftRight_eq_div_pow]
  congr 1
  omega

/-- The two masks give the same frame below `2 ^ 31`. -/
theorem toInt_frame_eq (hlt : (e &&& addressMask).toNat / 4096 < 2 ^ 31) :
    (((e &&& addrMask) >>> 12).setWidth 32).toInt = ((e &&& addressMask).toNat / 4096 : ℕ) := by
  have hsoft := toNat_and_addrMask e
  have harch := toNat_and_addressMask e
  have hnat : (((e &&& addrMask) >>> 12).setWidth 32).toNat =
      (e &&& addressMask).toNat / 4096 := by
    rw [BitVec.toNat_setWidth, BitVec.toNat_ushiftRight, Nat.shiftRight_eq_div_pow]
    omega
  rw [BitVec.toInt_eq_toNat_of_lt (by omega), hnat]

/-! ### Two addresses of one page -/

theorem getIndex_congr (h : v >>> 12 = virt >>> 12) (level : ℕ) :
    getIndex level v = getIndex level virt := by
  rw [getIndex, getIndex, BitVec.shiftRight_add, BitVec.shiftRight_add, h]

theorem archFrom_congr (h : v >>> 12 = virt >>> 12) (level : ℕ) (table : BitVec 64) :
    s.archFrom v level table = s.archFrom virt level table := by
  rw [archFrom, archFrom, pfnOf, pfnOf, FourLevelPaging.walk_congr h]

theorem straight_congr (h : v >>> 12 = virt >>> 12) (level : ℕ) (table : BitVec 64) :
    s.Straight v level table ↔ s.Straight virt level table := by
  induction level generalizing table with
  | zero => rfl
  | succ level ih => simp only [Straight, getIndex_congr h, ih]

theorem readsRight_congr (h : v >>> 12 = virt >>> 12) (level : ℕ) (table : BitVec 64) :
    s.ReadsRight v level table ↔ s.ReadsRight virt level table := by
  induction level generalizing table with
  | zero => simp only [ReadsRight, getIndex_congr h]
  | succ level ih => simp only [ReadsRight, getIndex_congr h, ih]

/-- The offset that `virt_to_pfn` adds ends in the last bit of the address. -/
theorem virtOffset_mod_two (level : ℕ) (v : BitVec 64) :
    (virtOffset level v).toNat % 2 = v.toNat % 2 := by
  have hodd : (0x1000 * 0x1000 ^ level - 1 : BitVec 64).toNat % 2 ^ 1 = 1 := by
    rw [BitVec.toNat_sub, BitVec.toNat_mul]
    simp
    omega
  have hand : (v.toNat &&& (0x1000 * 0x1000 ^ level - 1 : BitVec 64).toNat) % 2 ^ 1 =
      v.toNat % 2 ^ 1 := by
    rw [Nat.and_mod_two_pow, hodd]
    exact (Nat.and_two_pow_sub_one_eq_mod (v.toNat % 2 ^ 1) 1).trans (Nat.mod_mod _ _)
  rw [virtOffset, BitVec.toNat_and]
  exact hand

theorem xor_one_mod_two (v : BitVec 64) : (v ^^^ 1).toNat % 2 ≠ v.toNat % 2 := by
  have hxor : (v.toNat ^^^ 1) % 2 ^ 1 = v.toNat % 2 ^ 1 ^^^ 1 % 2 ^ 1 := Nat.xor_mod_two_pow
  rw [BitVec.toNat_xor]
  change (v.toNat ^^^ 1) % 2 ^ 1 ≠ v.toNat % 2 ^ 1
  rw [hxor]
  obtain heven | hodd := Nat.mod_two_eq_zero_or_one v.toNat
  · rw [show v.toNat % 2 ^ 1 = 0 from heven]
    decide
  · rw [show v.toNat % 2 ^ 1 = 1 from hodd]
    decide

/-- So two neighbours on a page are not given the same number. -/
theorem pfn_add_virtOffset_ne (h : v.toNat % 2 ≠ virt.toNat % 2) (level : ℕ) :
    (((e &&& addrMask) + virtOffset level v).setWidth 32).toInt ≠
      (((e &&& addrMask) + virtOffset level virt).setWidth 32).toInt := by
  intro heq
  have he := (isPage_and_addrMask e).toNat
  have hv := virtOffset_mod_two level v
  have hvirt := virtOffset_mod_two level virt
  have hnat := congrArg BitVec.toNat (BitVec.eq_of_toInt_eq heq)
  rw [BitVec.toNat_setWidth, BitVec.toNat_setWidth, BitVec.toNat_add, BitVec.toNat_add] at hnat
  omega

/-! ### Where the two agree -/

/-- A walk that stays in the tables and reads right finds the frame. -/
theorem ReadsRight.pfnFrom_eq (hr : s.ReadsRight virt level table)
    (hs : s.Straight virt level table) (hlt : s.archFrom virt level table < 2 ^ 31) :
    s.pfnFrom virt level table = s.archFrom virt level table := by
  induction level generalizing table with
  | zero =>
    rw [pfnFrom_zero]
    by_cases hp : s.entry table (getIndex 0 virt) &&& pgPresent = 0
    · rw [archFrom_of_absent hp, hr.resolve_left (not_not.mpr hp)]
      rfl
    · rw [archFrom_zero hp] at hlt ⊢
      exact toInt_frame_eq (by exact_mod_cast hlt)
  | succ level ih =>
    obtain ⟨hps, hr⟩ := hr
    rw [pfnFrom_succ, if_neg (not_not.mpr hps)]
    by_cases hp : s.entry table (getIndex (level + 1) virt) &&& pgPresent = 0
    · rw [if_neg (not_not.mpr hp), archFrom_of_absent hp]
    · obtain ⟨hsize, hmask, hs⟩ := hs hps hp
      rw [archFrom_of_table hp hsize, ← hmask] at hlt ⊢
      rw [if_pos hp]
      exact ih (hr hp) hs hlt

/-- Where the two agree on a page, the walk reads right. -/
theorem ReadsRight.of_agree (hs : s.Straight virt level table)
    (h : ∀ v : BitVec 64, v >>> 12 = virt >>> 12 →
      s.pfnFrom v level table = s.archFrom virt level table) :
    s.ReadsRight virt level table := by
  induction level generalizing table with
  | zero =>
    refine or_iff_not_imp_left.mpr fun hp => ?_
    have hzero := h virt rfl
    rw [pfnFrom_zero, archFrom_of_absent (not_not.mp hp)] at hzero
    exact BitVec.eq_of_toInt_eq hzero
  | succ level ih =>
    -- the neighbour of the address on its page
    have hpage : (virt ^^^ 1) >>> 12 = virt >>> 12 := by
      rw [BitVec.ushiftRight_xor_distrib, show (1 : BitVec 64) >>> 12 = 0 by decide]
      exact BitVec.xor_zero
    by_cases hps : s.entry table (getIndex (level + 1) virt) &&& pgPs = 0
    · refine ⟨hps, fun hp => ?_⟩
      obtain ⟨hsize, hmask, hs⟩ := hs hps hp
      refine ih hs fun v hv => ?_
      have hagree := h v hv
      rw [pfnFrom_succ, getIndex_congr hv, if_neg (not_not.mpr hps), if_pos hp,
        archFrom_of_table hp hsize, ← hmask] at hagree
      exact hagree
    · have hself := h virt rfl
      have hnext := h (virt ^^^ 1) hpage
      rw [pfnFrom_succ, if_pos hps] at hself
      rw [pfnFrom_succ, getIndex_congr hpage, if_pos hps, ← hself] at hnext
      exact absurd hnext (pfn_add_virtOffset_ne (xor_one_mod_two virt) _)

end MapperState

open MapperState

variable {P : PageSource}

/-- **`virt_to_pfn` finds the frames of the processor** for the addresses of a page if and only if
its walk reads right. -/
theorem virtToPfn_agrees_iff (s : MapperState P) (cr3 virt : BitVec 64)
    (hcr3 : cr3 &&& addressMask = cr3) (hframe : s.archPfn virt cr3 < 2 ^ 31)
    (hstraight : s.Straight virt 3 cr3) :
    (∀ v : BitVec 64, v >>> 12 = virt >>> 12 → s.virtToPfn cr3 v = s.archPfn v cr3) ↔
      s.ReadsRight virt 3 cr3 := by
  have harch : ∀ v : BitVec 64, s.archPfn v cr3 = s.archFrom v 3 cr3 := fun v => by
    rw [archPfn, FourLevelPaging.translate, hcr3]
    rfl
  rw [harch] at hframe
  constructor
  · intro h
    refine ReadsRight.of_agree hstraight fun v hv => ?_
    exact (h v hv).trans ((harch v).trans (archFrom_congr hv 3 cr3))
  · intro hr v hv
    rw [harch]
    refine ReadsRight.pfnFrom_eq ((readsRight_congr hv 3 cr3).mpr hr)
      ((straight_congr hv 3 cr3).mpr hstraight) ?_
    rwa [archFrom_congr hv]

/-- Tables with a few entries, and nothing in the rest of memory. -/
def fewEntries (words : List (BitVec 64 × BitVec 64)) : MapperState sevenPages :=
  { oneEntryTable 0 with mem := fun a => (words.lookup a).getD 0 }

/-- Page 0 with a table on every level. -/
theorem virtToPfn_agrees_four :
    (fewEntries [(0x1000, 0x2003), (0x2000, 0x3003), (0x3000, 0x4003),
      (0x4000, 0x9003)]).virtToPfn 0x1000 0x5 = 9 := by
  have hagree := (virtToPfn_agrees_iff (fewEntries [(0x1000, 0x2003), (0x2000, 0x3003),
    (0x3000, 0x4003), (0x4000, 0x9003)]) 0x1000 0 (by decide) (by decide +kernel)
    (by simp only [Straight]; decide +kernel)).mpr (by simp only [ReadsRight]; decide +kernel)
  rw [hagree 0x5 (by decide)]
  decide +kernel

/-- **A large page**, at 2 MiB. The frame of address 0 is `0x200`, and `virt_to_pfn` returns 0. -/
theorem not_virtToPfn_agrees :
    ¬ ∀ (P : PageSource) (s : MapperState P) (cr3 virt : BitVec 64), cr3 &&& addressMask = cr3 →
      s.archPfn virt cr3 < 2 ^ 31 → s.virtToPfn cr3 virt = s.archPfn virt cr3 := by
  intro h
  have hagree := h sevenPages (fewEntries [(0x1000, 0x2003), (0x2000, 0x3003), (0x3000, 0x200083)])
    0x1000 0 (by decide) (by decide +kernel)
  have hcode : (fewEntries [(0x1000, 0x2003), (0x2000, 0x3003),
      (0x3000, 0x200083)]).virtToPfn 0x1000 0 = 0 := by decide +kernel
  have harch : (fewEntries [(0x1000, 0x2003), (0x2000, 0x3003),
      (0x3000, 0x200083)]).archPfn 0 0x1000 = 0x200 := by decide +kernel
  rw [hcode, harch] at hagree
  exact absurd hagree (by decide)

end GoofyOs
