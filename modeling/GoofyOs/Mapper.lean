import Mathlib.Data.Set.Insert
import Mathlib.Logic.Function.Basic

/-!
# The page tables of `mm/mapper.c`

Memory is one map from virtual addresses to the 64-bit words that start there, and a table is named
by the physical address of its page. The walks take the address of an entry and the level it is on,
as the loops of the source do.

`map_page`, `unmap_page` and `is_mapped` are modelled between `acquire` and `release`, hence the
suffix `Nolock`. The outcome `none` of `mapPageNolock` is `hcf`, or `mapper_alloc_zpage` returning
no page. `vm_invalidate` and the calls to `printk` are left out.

## Main definitions

* `PageSource` — an allocator of physical pages
* `MapperState` — memory and the allocator
* `mapPageNolock`, `unmapPageNolock`, `isMappedNolock`, `virtToPfn` — the functions of the source
* `kernelTopPgtInit`, `newPageTable` — setting up top-level tables
-/

namespace GoofyOs

/-- `PG_PRESENT`. -/
def pgPresent : BitVec 64 := 1#64 <<< 0
/-- `PG_WRITE`. -/
def pgWrite : BitVec 64 := 1#64 <<< 1
/-- `PG_USER`. -/
def pgUser : BitVec 64 := 1#64 <<< 2
/-- `PG_NX`. -/
def pgNx : BitVec 64 := 1#64 <<< 63
/-- `PG_PS`. -/
def pgPs : BitVec 64 := 1#64 <<< 6
/-- `PG_FLAGMASK`. -/
def pgFlagmask : BitVec 64 := pgPresent ||| pgWrite ||| pgUser ||| pgNx ||| pgPs

/-- The bits of an entry that the walks take for an address. -/
def addrMask : BitVec 64 := 0x7ffffffffffff000

/-- The physical address of a page, as an entry can hold it. -/
def IsPage (p : BitVec 64) : Prop := p &&& addrMask = p

instance (p : BitVec 64) : Decidable (IsPage p) := inferInstanceAs (Decidable (_ = _))

/-- An allocator of physical pages. It hands out only pages that are not in use, and knows which
are. -/
structure PageSource where
  State : Type
  alloc : State → Option (BitVec 64 × State)
  free : State → BitVec 64 → State
  used : State → Set (BitVec 64)
  isPage : ∀ {s p s'}, alloc s = some (p, s') → IsPage p
  fresh : ∀ {s p s'}, alloc s = some (p, s') → p ∉ used s
  used_alloc : ∀ {s p s'}, alloc s = some (p, s') → used s' = insert p (used s)
  used_free : ∀ s p, used (free s p) = used s \ {p}

/-- Memory, by virtual address, and the page allocator. -/
structure MapperState (P : PageSource) where
  mem : BitVec 64 → BitVec 64
  hhdmOffset : BitVec 64
  pages : P.State

/-- `get_index`. -/
def getIndex (level : ℕ) (addr : BitVec 64) : BitVec 64 := addr >>> (12 + 9 * level) &&& 0x1ff

/-- `__virt_offset`. -/
def virtOffset (level : ℕ) (virt : BitVec 64) : BitVec 64 :=
  virt &&& (0x1000 * 0x1000 ^ level - 1)

namespace MapperState

variable {P : PageSource} (s : MapperState P)

/-- `__va`. -/
def va (phys : BitVec 64) : BitVec 64 := phys + s.hhdmOffset

/-- The address of `table[i]`. -/
def slot (table i : BitVec 64) : BitVec 64 := table + 8 * i

/-- Writing a word. -/
def write (addr value : BitVec 64) : MapperState P :=
  { s with mem := Function.update s.mem addr value }

/-- `memset(page, 0, 0x1000)`. -/
def clearPage (page : BitVec 64) : MapperState P :=
  { s with mem := fun a => if (a - page).toNat < 0x1000 then 0 else s.mem a }

/-- `memcpy(dst, src, 0x1000)`. -/
def copyPage (dst src : BitVec 64) : MapperState P :=
  { s with mem := fun a => if (a - dst).toNat < 0x1000 then s.mem (src + (a - dst)) else s.mem a }

/-- `bump_page` and `pgalloc`: the virtual address of a page. -/
def pgalloc : Option (BitVec 64 × MapperState P) :=
  (P.alloc s.pages).map fun r => (s.va r.1, { s with pages := r.2 })

/-- `bump_zpage`, `zpgalloc` and what `mapper_alloc_zpage` points to. -/
def zpgalloc : Option (BitVec 64 × MapperState P) :=
  s.pgalloc.map fun r => (r.1, r.2.clearPage r.1)

/-- `pgfree`. -/
def pgfree (page : BitVec 64) : MapperState P :=
  { s with pages := P.free s.pages (page - s.hhdmOffset) }

/-- The loop of `map_page`, from the entry at `table` on level `level`: the entry on level 0. -/
def mapWalk (virt : BitVec 64) :
    ℕ → BitVec 64 → MapperState P → Option (BitVec 64 × MapperState P)
  | 0, table, s => some (table, s)
  | level + 1, table, s =>
    if s.mem table &&& pgPresent ≠ 0 then
      let value := s.mem table &&& addrMask
      mapWalk virt level (slot (s.va value) (getIndex level virt)) s
    else do
      let (page, s) ← s.zpgalloc
      let value := page - s.hhdmOffset
      let s := s.write table (value ||| pgPresent ||| pgWrite)
      mapWalk virt level (slot (s.va value) (getIndex level virt)) s

/-- `map_page`. -/
def mapPageNolock (cr3 phys virt flags : BitVec 64) : Option (MapperState P) :=
  if flags &&& ~~~pgFlagmask ≠ 0 then none
  else (s.mapWalk virt 3 (slot cr3 (getIndex 3 virt))).map fun r =>
    r.2.write r.1 (phys ||| flags ||| pgPresent)

/-- The loop of `unmap_page`: the entry on level 0, or nothing when an entry above it is not
present. -/
def unmapWalk (virt : BitVec 64) : ℕ → BitVec 64 → Option (BitVec 64)
  | 0, table => some table
  | level + 1, table =>
    if s.mem table &&& pgPresent ≠ 0 then
      unmapWalk virt level (slot (s.va (s.mem table &&& addrMask)) (getIndex level virt))
    else none

/-- `unmap_page`. -/
def unmapPageNolock (cr3 virt : BitVec 64) : MapperState P :=
  match s.unmapWalk virt 3 (slot cr3 (getIndex 3 virt)) with
  | some table => s.write table 0
  | none => s

/-- The loop of `is_mapped`. -/
def isMappedWalk (virt : BitVec 64) : ℕ → BitVec 64 → Bool
  | 0, table => s.mem table &&& pgPresent ≠ 0
  | level + 1, table =>
    if s.mem table &&& pgPs ≠ 0 then true
    else if s.mem table &&& pgPresent ≠ 0 then
      isMappedWalk virt level (slot (s.va (s.mem table &&& addrMask)) (getIndex level virt))
    else false

/-- `is_mapped`. -/
def isMappedNolock (cr3 virt : BitVec 64) : Bool :=
  s.isMappedWalk virt 3 (slot cr3 (getIndex 3 virt))

/-- The loop of `virt_to_pfn`, before the conversion of its result to `int`. -/
def virtToPfnWalk (virt : BitVec 64) : ℕ → BitVec 64 → BitVec 64
  | 0, table => ((s.mem table &&& addrMask) + virtOffset 0 virt) >>> 12
  | level + 1, table =>
    if s.mem table &&& pgPs ≠ 0 then (s.mem table &&& addrMask) + virtOffset (level + 1) virt
    else if s.mem table &&& pgPresent ≠ 0 then
      virtToPfnWalk virt level (slot (s.va (s.mem table &&& addrMask)) (getIndex level virt))
    else 0

/-- `virt_to_pfn`, when `__readcr3` returns `cr3`. -/
def virtToPfn (cr3 virt : BitVec 64) : ℤ :=
  ((s.virtToPfnWalk virt 3 (slot (s.va cr3) (getIndex 3 virt))).setWidth 32).toInt

/-- The loop of `kernel_top_pgt_init` over the entries from `i` on. -/
def topPgtLoop (cr3 : BitVec 64) : List ℕ → MapperState P → Option (MapperState P)
  | [], s => some s
  | i :: is, s =>
    if s.mem (slot cr3 i) ≠ 0 then topPgtLoop cr3 is s
    else do
      let (page, s) ← s.zpgalloc
      topPgtLoop cr3 is (s.write (slot cr3 i) ((page - s.hhdmOffset) ||| pgPresent ||| pgWrite))

/-- `kernel_top_pgt_init`, when `__readcr3` returns `cr3`: the table of `kernel_virtual_pt`. -/
def kernelTopPgtInit (cr3 : BitVec 64) : Option (BitVec 64 × MapperState P) := do
  let s ← topPgtLoop (s.va cr3) (List.range' 0x100 0x100) s
  let (page, s) ← s.pgalloc
  pure (page, s.copyPage page (s.va cr3))

/-- `new_page_table`, when the table of `kernel_virtual_pt` is at `kernelCr3`: the new table. -/
def newPageTable (kernelCr3 : BitVec 64) : Option (BitVec 64 × MapperState P) := do
  let (pg, s) ← s.zpgalloc
  pure (pg, s.copyPage pg kernelCr3)

end MapperState

end GoofyOs
