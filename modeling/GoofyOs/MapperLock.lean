import GoofyOs.Spinlock
import GoofyOs.VmallocPages

/-!
# The lock of a page table

`map_page`, `unmap_page` and `is_mapped` take `pt->lock` first, and each of their exits has to
release it. In `Mapper` they are modelled between the two calls; here the calls stand where the
source has them. `unmap_page` leaves its walk at an entry that is not present, and keeps the lock.

The lock word is in the `struct page_table`, apart from the tables, and the CPU counts its nesting
as in `Spinlock`. `pt->cr3` is a virtual address.

## Main definitions

* `LockedTable`, `LockedTable.mapPage`, `LockedTable.unmapPage`, `LockedTable.isMapped` — a page
  table with its lock, and the functions of the source
* `PresentTo` — the tables of an address are there
* `TableCall`, `LockedTable.Balanced` — a call, and what is asked of it

## Main results

* `lock_balanced_iff` — which calls return with the lock free and `cli_count` restored
* `not_lock_balanced` — `unmap_page` in an empty table
-/

namespace GoofyOs

open MapperState

/-- A `struct page_table`, with the memory and the CPU. -/
structure LockedTable (P : PageSource) where
  mapper : MapperState P
  /-- `pt->cr3` -/
  cr3 : BitVec 64
  /-- the CPU, with `pt->lock` as its only lock -/
  cpu : LockCpu Unit

/-- A call. -/
inductive TableCall
  | mapPage (phys virt flags : BitVec 64)
  | unmapPage (virt : BitVec 64)
  | isMapped (virt : BitVec 64)

namespace LockedTable

variable {P : PageSource} (s : LockedTable P)

/-- `release(&pt->lock)`. -/
def release : LockedTable P := { s with cpu := s.cpu.release () }

/-- `acquire(&pt->lock)`. -/
def acquire : Option (LockedTable P) := (s.cpu.acquire ()).map fun cpu => { s with cpu := cpu }

/-- `map_page`. -/
def mapPage (phys virt flags : BitVec 64) : Option (LockedTable P) := do
  let s ← s.acquire
  let mapper ← s.mapper.mapPageNolock s.cr3 phys virt flags
  pure { s with mapper := mapper }.release

/-- `unmap_page`, from the entry at `table` on level `level` on. -/
def unmapFrom (virt : BitVec 64) : ℕ → BitVec 64 → LockedTable P
  | 0, table => { s with mapper := s.mapper.write table 0 }.release
  | level + 1, table =>
    if s.mapper.mem table &&& pgPresent ≠ 0 then
      unmapFrom virt level
        (slot (s.mapper.va (s.mapper.mem table &&& addrMask)) (getIndex level virt))
    else s

/-- `unmap_page`. -/
def unmapPage (virt : BitVec 64) : Option (LockedTable P) :=
  s.acquire.map fun s => s.unmapFrom virt 3 (slot s.cr3 (getIndex 3 virt))

/-- `is_mapped`, from the entry at `table` on level `level` on. -/
def isMappedFrom (virt : BitVec 64) : ℕ → BitVec 64 → Bool × LockedTable P
  | 0, table =>
    if s.mapper.mem table &&& pgPresent ≠ 0 then (true, s.release) else (false, s.release)
  | level + 1, table =>
    if s.mapper.mem table &&& pgPs ≠ 0 then (true, s.release)
    else if s.mapper.mem table &&& pgPresent ≠ 0 then
      isMappedFrom virt level
        (slot (s.mapper.va (s.mapper.mem table &&& addrMask)) (getIndex level virt))
    else (false, s.release)

/-- `is_mapped`. -/
def isMapped (virt : BitVec 64) : Option (Bool × LockedTable P) :=
  s.acquire.map fun s => s.isMappedFrom virt 3 (slot s.cr3 (getIndex 3 virt))

/-- One call. -/
def exec : TableCall → Option (LockedTable P)
  | .mapPage phys virt flags => s.mapPage phys virt flags
  | .unmapPage virt => s.unmapPage virt
  | .isMapped virt => (s.isMapped virt).map Prod.snd

/-- The flags are valid, and there are pages for missing tables. -/
def Ready : TableCall → Prop
  | .mapPage _ _ flags => flags &&& ~~~pgFlagmask = 0 ∧ P.supplies 3 s.mapper.pages = true
  | .unmapPage _ | .isMapped _ => True

/-- **What is asked of a call** that returns: the lock is free and `cli_count` is as before. -/
def Balanced (call : TableCall) : Prop :=
  ∀ s', s.exec call = some s' → s'.cpu.locked () = false ∧ s'.cpu.cliCount = s.cpu.cliCount

end LockedTable

/-- The entries above level 0 on the way of an address are present, from the entry at `table` on. -/
def PresentTo {P : PageSource} (m : MapperState P) (virt : BitVec 64) : ℕ → BitVec 64 → Prop
  | 0, _ => True
  | level + 1, table => m.mem table &&& pgPresent ≠ 0 ∧
    PresentTo m virt level (slot (m.va (m.mem table &&& addrMask)) (getIndex level virt))

namespace LockedTable

variable {P : PageSource} {s s' : LockedTable P} {virt phys flags table : BitVec 64} {level : ℕ}
  {call : TableCall}

/-- The calls whose exits all release the lock, and `unmap_page` where the tables are there. -/
def Exits (s : LockedTable P) : TableCall → Prop
  | .unmapPage virt => PresentTo s.mapper virt 3 (slot s.cr3 (getIndex 3 virt))
  | .mapPage _ _ _ | .isMapped _ => True

/-! ### The lock -/

theorem acquire_of_free (h : s.cpu.locked () = false) : s.acquire =
    some { s with cpu :=
      { s.cpu.pushcli with locked := Function.update s.cpu.locked () true } } := by
  rw [acquire, LockCpu.acquire, if_neg (by simp [h])]
  rfl

/-- The lock is held, and one more `pushcli` was counted. -/
structure Held (s s' : LockedTable P) : Prop where
  locked : s'.cpu.locked () = true
  cliCount : s'.cpu.cliCount = s.cpu.cliCount + 1

theorem held_acquire (h : s.acquire = some s') : s.Held s' ∧ s'.mapper = s.mapper ∧
    s'.cr3 = s.cr3 := by
  obtain ⟨cpu, hcpu, rfl⟩ := Option.map_eq_some_iff.mp h
  rw [LockCpu.acquire] at hcpu
  split at hcpu
  · cases hcpu
  · cases hcpu
    exact ⟨⟨Function.update_self () true s.cpu.locked, rfl⟩, rfl, rfl⟩

theorem Held.release (h : s.Held s') :
    s'.release.cpu.locked () = false ∧ s'.release.cpu.cliCount = s.cpu.cliCount := by
  have hfree : s'.release.cpu.locked () = false := by
    show Function.update s'.cpu.locked () false () = false
    rw [Function.update_self]
  refine ⟨hfree, ?_⟩
  show s'.cpu.cliCount - 1 = s.cpu.cliCount
  rw [h.cliCount]
  exact BitVec.add_sub_cancel _ _

/-- With the lock, nothing is balanced. -/
theorem Held.not_balanced (h : s.Held s') : ¬ s'.cpu.locked () = false := by
  rw [h.locked]
  exact Bool.noConfusion

/-! ### The walks -/

/-- **The exits of `is_mapped`** all release the lock. -/
theorem isMappedFrom_eq (s : LockedTable P) (virt : BitVec 64) (level : ℕ) (table : BitVec 64) :
    s.isMappedFrom virt level table = (s.mapper.isMappedWalk virt level table, s.release) := by
  induction level generalizing table with
  | zero =>
    rw [isMappedFrom, isMappedWalk]
    split
    · next hp => rw [decide_eq_true hp]
    · next hp => rw [decide_eq_false hp]
  | succ level ih =>
    rw [isMappedFrom, isMappedWalk]
    split
    · rfl
    · split
      · exact ih _
      · rfl

/-- **The exits of `unmap_page`**: the last one releases the lock, and the early ones do not. -/
theorem unmapFrom_eq (s : LockedTable P) (virt : BitVec 64) (level : ℕ) (table : BitVec 64) :
    (PresentTo s.mapper virt level table ∧
        ∃ addr, s.unmapFrom virt level table = { s with mapper := s.mapper.write addr 0 }.release) ∨
      (¬ PresentTo s.mapper virt level table ∧ s.unmapFrom virt level table = s) := by
  induction level generalizing table with
  | zero => exact .inl ⟨trivial, table, rfl⟩
  | succ level ih =>
    rw [unmapFrom, PresentTo]
    split
    · next hp =>
      rcases ih (slot (s.mapper.va (s.mapper.mem table &&& addrMask)) (getIndex level virt)) with
        ⟨hrest, hexit⟩ | ⟨hrest, hexit⟩
      · exact .inl ⟨⟨hp, hrest⟩, hexit⟩
      · exact .inr ⟨fun h => hrest h.2, hexit⟩
    · next hp => exact .inr ⟨fun h => hp h.1, rfl⟩

/-- The lock apart, `unmap_page` is the function of `Mapper`. -/
theorem mapper_unmapFrom (s : LockedTable P) (virt : BitVec 64) :
    (s.unmapFrom virt 3 (slot s.cr3 (getIndex 3 virt))).mapper =
      s.mapper.unmapPageNolock s.cr3 virt := by
  have hwalk : ∀ level table, (s.unmapFrom virt level table).mapper =
      (s.mapper.unmapWalk virt level table).elim s.mapper fun table => s.mapper.write table 0 := by
    intro level
    induction level with
    | zero =>
      intro table
      rfl
    | succ level ih =>
      intro table
      rw [unmapFrom, unmapWalk]
      split
      · exact ih _
      · rfl
  rw [hwalk, unmapPageNolock]
  cases s.mapper.unmapWalk virt 3 (slot s.cr3 (getIndex 3 virt)) <;> rfl

/-- **Page-table operations are lock-balanced**, except for `unmap_page` where a table is missing.
With valid flags, and pages for the missing tables, every call returns. -/
theorem lock_balanced_iff (s : LockedTable P) (call : TableCall) (hlock : s.cpu.locked () = false) :
    (s.Balanced call ↔ s.Exits call) ∧ (s.Ready call → ∃ s', s.exec call = some s') := by
  have hacquire := acquire_of_free hlock
  obtain ⟨hheld, hmapper, hcr3⟩ := held_acquire hacquire
  generalize ({ s with cpu := _ } : LockedTable P) = s₁ at hacquire hheld hmapper hcr3
  cases call with
  | mapPage phys virt flags =>
    have hexec : s.exec (.mapPage phys virt flags) =
        (s.mapper.mapPageNolock s.cr3 phys virt flags).map fun m =>
          { s₁ with mapper := m }.release := by
      rw [exec, mapPage, hacquire, Option.bind_eq_bind, Option.bind_some, hmapper, hcr3]
      cases s.mapper.mapPageNolock s.cr3 phys virt flags with
      | none => rfl
      | some m => rfl
    refine ⟨iff_of_true (fun s' hs' => ?_) trivial, fun hready => ?_⟩
    · rw [hexec] at hs'
      obtain ⟨m, -, rfl⟩ := Option.map_eq_some_iff.mp hs'
      exact hheld.release
    · obtain ⟨m, hmap, -⟩ := mapPageNolock_supplies (n := 0) (m := s.mapper) (c := s.cr3)
        (v := virt) phys hready.1 hready.2
      exact ⟨_, hexec.trans (congrArg (Option.map _) hmap)⟩
  | isMapped virt =>
    have hexec : s.exec (.isMapped virt) = some s₁.release := by
      rw [exec, isMapped, hacquire, Option.map_some, isMappedFrom_eq]
      rfl
    refine ⟨iff_of_true (fun s' hs' => ?_) trivial, fun _ => ⟨_, hexec⟩⟩
    obtain rfl := Option.some.inj (hexec.symm.trans hs')
    exact hheld.release
  | unmapPage virt =>
    have hexec : s.exec (.unmapPage virt) =
        some (s₁.unmapFrom virt 3 (slot s₁.cr3 (getIndex 3 virt))) := by
      rw [exec, unmapPage, hacquire, Option.map_some]
    refine ⟨?_, fun _ => ⟨_, hexec⟩⟩
    rw [Balanced, hexec, Exits, ← hmapper, ← hcr3]
    rcases unmapFrom_eq s₁ virt 3 (slot s₁.cr3 (getIndex 3 virt)) with
      ⟨hpresent, addr, hexit⟩ | ⟨habsent, hexit⟩
    · refine iff_of_true (fun s' hs' => ?_) hpresent
      obtain rfl := Option.some.inj hs'
      rw [hexit]
      exact hheld.release
    · refine iff_of_false (fun hbalanced => ?_) habsent
      have hfree := (hbalanced _ rfl).1
      rw [hexit] at hfree
      exact hheld.not_balanced hfree

/-- A table with no entries, on a CPU that holds no lock. -/
def emptyLocked : LockedTable sevenPages where
  mapper := oneEntryTable 0
  cr3 := 0x1000
  cpu := ⟨true, 0, [], fun _ => false⟩

theorem lock_balanced_empty :
    (emptyLocked.Balanced (.mapPage 0x9000 0x5000 pgWrite) ↔
        emptyLocked.Exits (.mapPage 0x9000 0x5000 pgWrite)) ∧
      ∃ s', emptyLocked.exec (.mapPage 0x9000 0x5000 pgWrite) = some s' := by
  have hboth := lock_balanced_iff emptyLocked (.mapPage 0x9000 0x5000 pgWrite) rfl
  exact ⟨hboth.1, hboth.2 ⟨by decide, by decide +kernel⟩⟩

/-- `unmap_page` in an empty table keeps the lock. -/
theorem not_lock_balanced : ¬ ∀ (P : PageSource) (s : LockedTable P) (call : TableCall),
    s.cpu.locked () = false → s.Ready call → s.Balanced call := by
  intro hall
  have hheld : (emptyLocked.exec (.unmapPage 0x5000)).map (fun s => s.cpu.locked ()) =
      some true := by decide +kernel
  obtain ⟨s', hexec, hlocked⟩ := Option.map_eq_some_iff.mp hheld
  have hfree := (hall sevenPages emptyLocked (.unmapPage 0x5000) rfl trivial s' hexec).1
  exact Bool.noConfusion (hlocked.symm.trans hfree)

end LockedTable

end GoofyOs
