import GoofyOs.CInt
import Mathlib.Data.BitVec
import Mathlib.Data.List.Range
import Mathlib.Data.List.Nodup
import Mathlib.Tactic.IntervalCases

/-!
# Which record is whose

`limine_init` and `tss_init` number the CPUs by their position in the response of the boot loader,
and so do `cpu_cores` and the descriptors in `gdt_table`. A running CPU finds its record with
`current_cpuid`, which is its local APIC id, or the low eight bits of it. The two agree only if the
boot loader lists the ids 0, 1, 2, … in this order.

## Main definitions

* `MpResponse` — the response of the boot loader
* `CpuTables.limineInit`, `CpuTables.tssInit` — filling the records and the descriptors
* `CpuTables.Identity` — a CPU finds its own record and its own descriptor

## Main results

* `MpResponse.boot_spec` — what the records and the descriptors hold
* `cpu_identity_iff` — when every running CPU finds its own
* `not_cpu_identity` — two CPUs with the ids 0 and 2
-/

namespace GoofyOs

/-- `MAX_CPUS`. -/
def maxCpus : ℕ := 0x10

/-- `struct limine_mp_response`: the local APIC ids of the CPUs, and that of the first processor. -/
structure MpResponse where
  cpus : List (BitVec 32)
  bspLapicId : BitVec 32
  nodup : cpus.Nodup
  bsp_mem : bspLapicId ∈ cpus

/-- `struct cpu`, with the fields that the initialisation fills. -/
structure CpuCore where
  lapicId : ℕ
  cliCount : ℕ
  tss : BitVec 64
  deriving DecidableEq

/-- `cpu_cores` and `gdt_table`. -/
structure CpuTables where
  cpuCores : List CpuCore
  gdtTable : List (BitVec 64)

/-- `cpu_cores` before `limine_init`. -/
def zeroCore : CpuCore := ⟨0, 0, 0⟩

namespace MpResponse

/-- `n_cpus`, which is an `int`. -/
def nCpus (mp : MpResponse) : ℤ := asInt mp.cpus.length

/-- The CPU at position `p` runs: it is the first processor, or `smp_init` gives it an address to
go to. -/
def Runs (mp : MpResponse) (p : ℕ) : Prop :=
  p < mp.cpus.length ∧ (mp.cpus[p]? = some mp.bspLapicId ∨ (1 ≤ p ∧ (p : ℤ) < mp.nCpus))

/-- `lapic_id` of the CPU at position `p`. -/
def lapicId (mp : MpResponse) (p : ℕ) : ℕ := (mp.cpus.getD p 0).toNat

/-- `current_cpuid`, on the CPU at position `p`. -/
def currentCpuid (mp : MpResponse) (p : ℕ) : ℕ := mp.lapicId p % 256

end MpResponse

/-- The two words that `set_tss_desc` writes. A `struct tss` has 104 bytes. -/
def tssDesc (base : BitVec 64) : BitVec 64 × BitVec 64 :=
  let limit : BitVec 64 := 104 - 1
  (limit &&& 0xffff ||| (base &&& 0xffff) <<< 16 ||| (base >>> 16 &&& 0xff) <<< 32 |||
      (0x9 : BitVec 64) <<< 40 ||| (1 : BitVec 64) <<< 47 ||| (limit >>> 16 &&& 0xf) <<< 48 |||
      (base >>> 24 &&& 0xff) <<< 56,
    base >>> 32)

/-- `selector` in `tss_percpu_init`, an `unsigned short`. -/
def tssSelector (cpuid : ℕ) : ℕ := (5 + cpuid * 2) * 8 % 2 ^ 16

namespace CpuTables

/-- `a[i] = x`. There is no result when `i` is out of bounds. -/
def store {α : Type*} (a : List α) (i : ℕ) (x : α) : Option (List α) :=
  if i < a.length then some (a.set i x) else none

/-- The body of the loop of `limine_init`. -/
def fillCore (mp : MpResponse) (s : CpuTables) (i : ℕ) : Option CpuTables := do
  let core ← s.cpuCores[i]?
  let cpuCores ← store s.cpuCores i { core with lapicId := mp.lapicId i, cliCount := 1 }
  some { s with cpuCores }

/-- The loop of `limine_init`. -/
def limineInit (mp : MpResponse) (s : CpuTables) : Option CpuTables :=
  (List.range mp.nCpus.toNat).foldlM (fillCore mp) s

/-- The body of the loop of `tss_init`, when `kzalloc` returns `taskSeg i`. -/
def fillTss (taskSeg : ℕ → BitVec 64) (s : CpuTables × ℕ) (i : ℕ) : Option (CpuTables × ℕ) := do
  let (s, gdtIdx) := s
  let core ← s.cpuCores[i]?
  let cpuCores ← store s.cpuCores i { core with tss := taskSeg i }
  let gdtTable ← store s.gdtTable gdtIdx (tssDesc (taskSeg i)).1
  let gdtTable ← store gdtTable (gdtIdx + 1) (tssDesc (taskSeg i)).2
  some ({ s with cpuCores, gdtTable }, gdtIdx + 2)

/-- `tss_init`. -/
def tssInit (mp : MpResponse) (taskSeg : ℕ → BitVec 64) (s : CpuTables) : Option CpuTables :=
  ((List.range mp.nCpus.toNat).foldlM (fillTss taskSeg) (s, 5)).map Prod.fst

/-- The CPU at position `p` finds the record with its own id, filled by `limine_init`, and loads
the selector of the descriptor that belongs to this record. -/
def Identity (mp : MpResponse) (s : CpuTables) (p : ℕ) : Prop :=
  mp.currentCpuid p < maxCpus ∧ ∃ core,
    s.cpuCores[mp.currentCpuid p]? = some core ∧ core.lapicId = mp.lapicId p ∧
      core.cliCount = 1 ∧
      s.gdtTable[tssSelector (mp.currentCpuid p) / 8]? = some (tssDesc core.tss).1 ∧
      s.gdtTable[tssSelector (mp.currentCpuid p) / 8 + 1]? = some (tssDesc core.tss).2

end CpuTables

/-- `limine_init` and `tss_init`, from zeroed `cpu_cores`. -/
def MpResponse.boot (mp : MpResponse) (taskSeg : ℕ → BitVec 64) (gdtTable : List (BitVec 64)) :
    Option CpuTables := do
  let s ← CpuTables.limineInit mp ⟨List.replicate maxCpus zeroCore, gdtTable⟩
  CpuTables.tssInit mp taskSeg s

/-! ### The loops -/

namespace CpuTables

variable {mp : MpResponse} {s : CpuTables} {gdtTable : List (BitVec 64)} {n N : ℕ}
  {taskSeg : ℕ → BitVec 64}

theorem store_eq {α : Type*} {a : List α} {i : ℕ} (hi : i < a.length) (x : α) :
    store a i x = some (a.set i x) :=
  if_pos hi

/-- The records after `n` rounds of the loop of `limine_init`. -/
structure Filled (mp : MpResponse) (gdtTable : List (BitVec 64)) (s : CpuTables) (n : ℕ) :
    Prop where
  length : s.cpuCores.length = maxCpus
  core : ∀ i < maxCpus,
    s.cpuCores[i]? = some (if i < n then ⟨mp.lapicId i, 1, 0⟩ else zeroCore)
  gdtTable : s.gdtTable = gdtTable

theorem filled_zero : Filled mp gdtTable ⟨List.replicate maxCpus zeroCore, gdtTable⟩ 0 where
  length := List.length_replicate
  core := by
    intro i hi
    rw [if_neg (Nat.not_lt_zero i)]
    exact List.getElem?_replicate_of_lt hi
  gdtTable := rfl

/-- One round. -/
theorem Filled.step (h : Filled mp gdtTable s n) (hn : n < maxCpus) :
    ∃ s', fillCore mp s n = some s' ∧ Filled mp gdtTable s' (n + 1) := by
  have hlt : n < s.cpuCores.length := h.length ▸ hn
  refine ⟨{ s with cpuCores := s.cpuCores.set n ⟨mp.lapicId n, 1, 0⟩ }, ?_, ?_, ?_, h.gdtTable⟩
  · rw [fillCore, h.core n hn, if_neg (lt_irrefl n)]
    show (store s.cpuCores n _).bind _ = _
    rw [store_eq hlt]
    rfl
  · exact List.length_set.trans h.length
  · intro i hi
    rw [List.getElem?_set, h.core i hi]
    by_cases hin : n = i
    · subst hin
      rw [if_pos rfl, if_pos hlt, if_pos (Nat.lt_succ_self n)]
    · rw [if_neg hin]
      simp only [show i < n + 1 ↔ i < n by omega]

/-- **`limine_init`** fills a record for each CPU, if there are enough. -/
theorem limineInit_spec (mp : MpResponse) (gdtTable : List (BitVec 64)) :
    (mp.nCpus.toNat ≤ maxCpus →
      ∃ s, limineInit mp ⟨List.replicate maxCpus zeroCore, gdtTable⟩ = some s ∧
        Filled mp gdtTable s mp.nCpus.toNat) ∧
      (maxCpus < mp.nCpus.toNat →
        limineInit mp ⟨List.replicate maxCpus zeroCore, gdtTable⟩ = none) := by
  unfold limineInit
  generalize mp.nCpus.toNat = n
  induction n with
  | zero => exact ⟨fun _ => ⟨_, rfl, filled_zero⟩, fun h => absurd h (by decide)⟩
  | succ n ih =>
    rw [List.range_succ, List.foldlM_append]
    refine ⟨fun hn => ?_, fun hn => ?_⟩
    · obtain ⟨s, hs, hfilled⟩ := ih.1 (Nat.le_of_succ_le hn)
      obtain ⟨s', hs', hfilled'⟩ := hfilled.step hn
      refine ⟨s', ?_, hfilled'⟩
      rw [hs]
      simp [hs']
    · rcases Nat.lt_or_ge maxCpus n with hlt | hge
      · rw [ih.2 hlt]
        rfl
      · obtain rfl : n = maxCpus := by omega
        obtain ⟨s, hs, hfilled⟩ := ih.1 le_rfl
        have hout : s.cpuCores[maxCpus]? = none :=
          List.getElem?_eq_none hfilled.length.le
        rw [hs]
        simp [fillCore, hout]

/-- The records and the descriptors after `n` rounds of the loop of `tss_init`, for `N` CPUs. -/
structure TssFilled (mp : MpResponse) (taskSeg : ℕ → BitVec 64) (N : ℕ) (s : CpuTables × ℕ)
    (n : ℕ) : Prop where
  length : s.1.cpuCores.length = maxCpus
  core : ∀ i < maxCpus, s.1.cpuCores[i]? =
    some (if i < N then ⟨mp.lapicId i, 1, if i < n then taskSeg i else 0⟩ else zeroCore)
  gdtIdx : s.2 = 5 + 2 * n
  length_gdt : s.1.gdtTable.length = 255
  gdt : ∀ i < n, s.1.gdtTable[5 + 2 * i]? = some (tssDesc (taskSeg i)).1 ∧
    s.1.gdtTable[5 + 2 * i + 1]? = some (tssDesc (taskSeg i)).2

theorem Filled.tssFilled (h : Filled mp gdtTable s N) (hgdt : gdtTable.length = 255) :
    TssFilled mp taskSeg N (s, 5) 0 where
  length := h.length
  core := by
    intro i hi
    rw [if_neg (Nat.not_lt_zero i)]
    exact h.core i hi
  gdtIdx := rfl
  length_gdt := h.gdtTable ▸ hgdt
  gdt i hi := absurd hi (Nat.not_lt_zero i)

/-- One round. -/
theorem TssFilled.step {s : CpuTables × ℕ} (h : TssFilled mp taskSeg N s n) (hn : n < N)
    (hN : N ≤ maxCpus) :
    ∃ s', fillTss taskSeg s n = some s' ∧ TssFilled mp taskSeg N s' (n + 1) := by
  obtain ⟨s, gdtIdx⟩ := s
  have hmax : maxCpus = 16 := rfl
  have hidx : gdtIdx = 5 + 2 * n := h.gdtIdx
  subst hidx
  have hgdt : s.gdtTable.length = 255 := h.length_gdt
  have hcores : s.cpuCores.length = maxCpus := h.length
  have hcore : ∀ i < maxCpus, s.cpuCores[i]? =
    some (if i < N then ⟨mp.lapicId i, 1, if i < n then taskSeg i else 0⟩ else zeroCore) := h.core
  have hold : ∀ i < n, s.gdtTable[5 + 2 * i]? = some (tssDesc (taskSeg i)).1 ∧
    s.gdtTable[5 + 2 * i + 1]? = some (tssDesc (taskSeg i)).2 := h.gdt
  refine ⟨({ cpuCores := s.cpuCores.set n ⟨mp.lapicId n, 1, taskSeg n⟩
             gdtTable := (s.gdtTable.set (5 + 2 * n) (tssDesc (taskSeg n)).1).set (5 + 2 * n + 1)
               (tssDesc (taskSeg n)).2 }, 5 + 2 * n + 2), ?_, ?_, ?_, ?_, ?_, ?_⟩
  · show (s.cpuCores[n]?).bind _ = _
    rw [hcore n (by omega), if_pos hn, if_neg (lt_irrefl n)]
    show (store s.cpuCores n _).bind _ = _
    rw [store_eq (by omega)]
    show (store s.gdtTable (5 + 2 * n) _).bind _ = _
    rw [store_eq (by omega)]
    show (store (s.gdtTable.set (5 + 2 * n) _) (5 + 2 * n + 1) _).bind _ = _
    rw [store_eq (by rw [List.length_set]; omega)]
    rfl
  · exact List.length_set.trans hcores
  · intro i hi
    show (s.cpuCores.set n _)[i]? = _
    rw [List.getElem?_set, hcore i hi]
    by_cases hin : n = i
    · subst hin
      rw [if_pos rfl, if_pos (by omega), if_pos hn, if_pos (Nat.lt_succ_self n)]
    · rw [if_neg hin]
      simp only [show i < n + 1 ↔ i < n by omega]
  · show 5 + 2 * n + 2 = 5 + 2 * (n + 1)
    omega
  · show ((s.gdtTable.set _ _).set _ _).length = 255
    rw [List.length_set, List.length_set, hgdt]
  · intro i hi
    show ((s.gdtTable.set _ _).set _ _)[5 + 2 * i]? = _ ∧
      ((s.gdtTable.set _ _).set _ _)[5 + 2 * i + 1]? = _
    by_cases hin : i = n
    · subst hin
      rw [List.getElem?_set_ne (by omega), List.getElem?_set_self (by omega),
        List.getElem?_set_self (by rw [List.length_set]; omega)]
      exact ⟨rfl, rfl⟩
    · rw [List.getElem?_set_ne (by omega), List.getElem?_set_ne (by omega),
        List.getElem?_set_ne (by omega), List.getElem?_set_ne (by omega)]
      exact hold i (by omega)

/-- **`tss_init`** writes a descriptor for each CPU. -/
theorem tssInit_spec (taskSeg : ℕ → BitVec 64) (h : Filled mp gdtTable s mp.nCpus.toNat)
    (hgdt : gdtTable.length = 255) (hN : mp.nCpus.toNat ≤ maxCpus) :
    ∃ s' gdtIdx, tssInit mp taskSeg s = some s' ∧
      TssFilled mp taskSeg mp.nCpus.toNat (s', gdtIdx) mp.nCpus.toNat := by
  have hloop : ∀ n ≤ mp.nCpus.toNat, ∃ s',
      (List.range n).foldlM (fillTss taskSeg) (s, 5) = some s' ∧
        TssFilled mp taskSeg mp.nCpus.toNat s' n := by
    intro n hn
    induction n with
    | zero => exact ⟨_, rfl, h.tssFilled hgdt⟩
    | succ n ih =>
      obtain ⟨s₁, hs₁, hfilled₁⟩ := ih (Nat.le_of_succ_le hn)
      obtain ⟨s₂, hs₂, hfilled₂⟩ := hfilled₁.step hn hN
      refine ⟨s₂, ?_, hfilled₂⟩
      rw [List.range_succ, List.foldlM_append, hs₁]
      simp [hs₂]
  obtain ⟨⟨s', gdtIdx⟩, hs', hfilled⟩ := hloop _ le_rfl
  refine ⟨s', gdtIdx, ?_, hfilled⟩
  rw [tssInit, hs', Option.map_some]

end CpuTables

/-! ### Who finds what -/

namespace MpResponse

open CpuTables

variable {mp : MpResponse} {s : CpuTables} {taskSeg : ℕ → BitVec 64} {gdtTable : List (BitVec 64)}
  {p q : ℕ}

/-- **What the tables hold** after `limine_init` and `tss_init`. -/
theorem boot_spec (mp : MpResponse) (taskSeg : ℕ → BitVec 64) (hgdt : gdtTable.length = 255) :
    (mp.nCpus.toNat ≤ maxCpus → ∃ s gdtIdx, mp.boot taskSeg gdtTable = some s ∧
      TssFilled mp taskSeg mp.nCpus.toNat (s, gdtIdx) mp.nCpus.toNat) ∧
      (maxCpus < mp.nCpus.toNat → mp.boot taskSeg gdtTable = none) := by
  obtain ⟨hfits, hfull⟩ := limineInit_spec mp gdtTable
  refine ⟨fun hN => ?_, fun hN => ?_⟩
  · obtain ⟨s, hs, hfilled⟩ := hfits hN
    obtain ⟨s', gdtIdx, hs', hfilled'⟩ := tssInit_spec taskSeg hfilled hgdt hN
    refine ⟨s', gdtIdx, ?_, hfilled'⟩
    rw [boot, hs, Option.bind_eq_bind, Option.bind_some, hs']
  · rw [boot, hfull hN]
    rfl

theorem lapicId_inj (hp : p < mp.cpus.length) (hq : q < mp.cpus.length) :
    mp.lapicId p = mp.lapicId q ↔ p = q := by
  refine ⟨fun h => ?_, fun h => by rw [h]⟩
  rw [lapicId, lapicId, BitVec.toNat_inj, List.getD_eq_getElem?_getD, List.getD_eq_getElem?_getD,
    List.getElem?_eq_getElem hp, List.getElem?_eq_getElem hq] at h
  exact mp.nodup.getElem_inj_iff.mp h

/-- There are at most `2 ^ 32` ids. -/
theorem length_cpus_le (mp : MpResponse) : mp.cpus.length ≤ 2 ^ 32 := by
  have hnodup : (mp.cpus.map BitVec.toNat).Nodup :=
    mp.nodup.map fun _ _ h => BitVec.eq_of_toNat_eq h
  have hsub : mp.cpus.map BitVec.toNat ⊆ List.range (2 ^ 32) := by
    intro n hn
    obtain ⟨id, -, rfl⟩ := List.mem_map.mp hn
    exact List.mem_range.mpr id.isLt
  have hlen := (hnodup.subperm hsub).length_le
  rwa [List.length_map, List.length_range] at hlen

/-- `n_cpus` is the number of CPUs, or it is not positive. -/
theorem toNat_nCpus (mp : MpResponse) :
    mp.nCpus.toNat = if mp.cpus.length < 2 ^ 31 then mp.cpus.length else 0 := by
  have hle := mp.length_cpus_le
  rw [nCpus]
  split
  case isTrue hlt => rw [asInt_of_lt (by omega) (by omega), Int.toNat_natCast]
  case isFalse hge =>
    rw [asInt, Int.bmod_def]
    omega

/-- The first processor runs. -/
theorem exists_runs (mp : MpResponse) : ∃ p, mp.Runs p := by
  obtain ⟨p, hp, hid⟩ := List.getElem_of_mem mp.bsp_mem
  exact ⟨p, hp, Or.inl (List.getElem?_eq_some_iff.mpr ⟨hp, hid⟩)⟩

/-- With room for all CPUs, a CPU finds its own record just when its id names its position. -/
theorem identity_iff {gdtIdx : ℕ} (hlen : mp.cpus.length ≤ maxCpus)
    (h : TssFilled mp taskSeg mp.cpus.length (s, gdtIdx) mp.cpus.length)
    (hp : p < mp.cpus.length) : Identity mp s p ↔ mp.currentCpuid p = p := by
  have hcore : ∀ i < maxCpus, s.cpuCores[i]? = some (if i < mp.cpus.length then
    ⟨mp.lapicId i, 1, if i < mp.cpus.length then taskSeg i else 0⟩ else zeroCore) := h.core
  constructor
  · rintro ⟨hlt, core, hget, hid, hcli, -⟩
    rw [hcore _ hlt, Option.some_inj] at hget
    by_cases hj : mp.currentCpuid p < mp.cpus.length
    · rw [if_pos hj] at hget
      exact (lapicId_inj hj hp).mp ((congrArg CpuCore.lapicId hget).trans hid)
    · rw [if_neg hj] at hget
      rw [← hget] at hcli
      exact absurd hcli (by decide)
  · intro heq
    have hmax : maxCpus = 16 := rfl
    have hsel : tssSelector p / 8 = 5 + 2 * p := by
      rw [tssSelector]
      omega
    rw [Identity, heq, hsel]
    refine ⟨by omega, _, hcore p (by omega), ?_⟩
    rw [if_pos hp, if_pos hp]
    exact ⟨rfl, rfl, h.gdt p hp⟩

/-- When `n_cpus` is not positive, no record is filled. -/
theorem not_identity_of_nCpus (hcpus : mp.nCpus.toNat = 0) (hgdt : gdtTable.length = 255)
    (hs : mp.boot taskSeg gdtTable = some s) : ¬∀ p, mp.Runs p → Identity mp s p := by
  intro hidentity
  obtain ⟨p, hp⟩ := mp.exists_runs
  obtain ⟨hlt, core, hget, -, hcli, -⟩ := hidentity p hp
  obtain ⟨s', gdtIdx, hs', hfilled⟩ := (boot_spec mp taskSeg hgdt).1 (by rw [hcpus]; decide)
  obtain rfl := Option.some.inj (hs'.symm.trans hs)
  have hcore := hfilled.core _ hlt
  rw [hcpus, if_neg (Nat.not_lt_zero _)] at hcore
  obtain rfl := Option.some.inj (hget.symm.trans hcore)
  exact absurd hcli (by decide)

end MpResponse

open CpuTables MpResponse in
/-- **CPU identity.** Every running CPU finds its own record and descriptor, and no two find the
same, just when there are at most 16 CPUs and the low eight bits of the id of every running CPU are
its position in the response. -/
theorem cpu_identity_iff (mp : MpResponse) (taskSeg : ℕ → BitVec 64) {gdtTable : List (BitVec 64)}
    (hgdt : gdtTable.length = 255) :
    (∃ s, mp.boot taskSeg gdtTable = some s ∧ (∀ p, mp.Runs p → Identity mp s p) ∧
        ∀ p q, mp.Runs p → mp.Runs q → p ≠ q → mp.currentCpuid p ≠ mp.currentCpuid q) ↔
      mp.cpus.length ≤ maxCpus ∧ ∀ p, mp.Runs p → mp.lapicId p % 256 = p := by
  obtain ⟨hfits, hfull⟩ := boot_spec mp taskSeg hgdt
  have hcpus := mp.toNat_nCpus
  have hmax : maxCpus = 16 := rfl
  constructor
  · rintro ⟨s, hs, hidentity, -⟩
    have hint : mp.cpus.length < 2 ^ 31 := by
      by_contra hge
      rw [if_neg hge] at hcpus
      exact not_identity_of_nCpus hcpus hgdt hs hidentity
    rw [if_pos hint] at hcpus
    rw [hcpus] at hfits hfull
    have hlen : mp.cpus.length ≤ maxCpus := by
      by_contra hgt
      rw [hfull (Nat.lt_of_not_le hgt)] at hs
      exact Option.some_ne_none s hs.symm
    obtain ⟨s', gdtIdx, hs', hfilled⟩ := hfits hlen
    obtain rfl := Option.some.inj (hs'.symm.trans hs)
    exact ⟨hlen, fun p hp => (identity_iff hlen hfilled hp.1).mp (hidentity p hp)⟩
  · rintro ⟨hlen, hpos⟩
    rw [if_pos (by omega)] at hcpus
    rw [hcpus] at hfits
    obtain ⟨s, gdtIdx, hs, hfilled⟩ := hfits hlen
    refine ⟨s, hs, fun p hp => ?_, fun p q hp hq hne heq => ?_⟩
    · exact (identity_iff hlen hfilled hp.1).mpr (hpos p hp)
    · rw [currentCpuid, currentCpuid, hpos p hp, hpos q hq] at heq
      exact hne heq

/-! ### Two CPUs -/

/-- Two CPUs, the first processor with the id 0. -/
def twoCpus (id : BitVec 32) (h : id ≠ 0) : MpResponse where
  cpus := [0, id]
  bspLapicId := 0
  nodup := by simpa using h.symm
  bsp_mem := List.mem_cons_self

theorem nCpus_twoCpus {id : BitVec 32} (h : id ≠ 0) : (twoCpus id h).nCpus = 2 := by
  have hlen : (twoCpus id h).cpus.length = 2 := rfl
  rw [MpResponse.nCpus, hlen]
  exact asInt_of_lt (by decide) (by decide)

theorem runs_twoCpus_one {id : BitVec 32} (h : id ≠ 0) : (twoCpus id h).Runs 1 := by
  refine ⟨Nat.lt_succ_self 1, Or.inr ⟨le_rfl, ?_⟩⟩
  rw [nCpus_twoCpus h]
  decide

open MpResponse in
/-- **The ids 0 and 2.** The second CPU takes the record number 2, which nobody fills. -/
theorem not_cpu_identity :
    ¬∀ (mp : MpResponse) (taskSeg : ℕ → BitVec 64) (gdtTable : List (BitVec 64)),
      gdtTable.length = 255 → ∃ s, mp.boot taskSeg gdtTable = some s ∧
        (∀ p, mp.Runs p → CpuTables.Identity mp s p) ∧
        ∀ p q, mp.Runs p → mp.Runs q → p ≠ q → mp.currentCpuid p ≠ mp.currentCpuid q := by
  intro hall
  have hne : (2 : BitVec 32) ≠ 0 := by decide
  obtain ⟨s, hs, hidentity, -⟩ := hall (twoCpus 2 hne) (fun _ => 0) (List.replicate 255 0)
    List.length_replicate
  have hcpus := nCpus_twoCpus hne
  obtain ⟨s', gdtIdx, hs', hfilled⟩ :=
    (boot_spec (twoCpus 2 hne) (fun _ => 0) List.length_replicate).1 (by rw [hcpus]; decide)
  obtain rfl := Option.some.inj (hs'.symm.trans hs)
  rw [hcpus] at hfilled
  have hlen : (twoCpus 2 hne).cpus.length = 2 := rfl
  have hcpuid : (twoCpus 2 hne).currentCpuid 1 = 2 := rfl
  have hid := (identity_iff (by rw [hlen]; decide) hfilled (Nat.lt_succ_self 1)).mp
    (hidentity 1 (runs_twoCpus_one hne))
  rw [hcpuid] at hid
  exact absurd hid (by decide)

open MpResponse in
/-- The ids 0 and 1. -/
theorem cpu_identity_two :
    ∃ s, (twoCpus 1 (by decide)).boot (fun _ => 0) (List.replicate 255 0) = some s ∧
      (∀ p, (twoCpus 1 (by decide)).Runs p → CpuTables.Identity (twoCpus 1 (by decide)) s p) ∧
      ∀ p q, (twoCpus 1 (by decide)).Runs p → (twoCpus 1 (by decide)).Runs q → p ≠ q →
        (twoCpus 1 (by decide)).currentCpuid p ≠ (twoCpus 1 (by decide)).currentCpuid q := by
  refine (cpu_identity_iff (twoCpus 1 (by decide)) (fun _ => 0) List.length_replicate).mpr
    ⟨by decide, fun p hp => ?_⟩
  have hp : p < 2 := hp.1
  interval_cases p <;> rfl

end GoofyOs
