import GoofyOs.Buddy

/-!
# The slab allocator of `mm/slab.c`

Caches, slabs, pages and chunks are named by numbers: caches and slabs by their address, pages by
their frame number, chunks by their virtual address. A free chunk holds a
`struct single_list_head`, so the `next` fields of the chunks are one map; `page->slab` is another.

A cache keeps its slabs on three intrusive lists and counts them. `alloc_pages` and
`mempool_zalloc` enter as arguments of `kmemCacheNewEmpty`: what they return in that call. The
outcome `none` is a read through a null pointer, or the use of the value that
`kmem_cache_new_empty` does not return on its error path. The locks of the caches are left out.

## Main definitions

* `SlabState` — the caches, the slabs and the free chunks
* `kmemInsertSlab`, `kmemCacheAllocPartial`, `kmemCacheAllocEmpty`, `kmemCacheNewEmpty`,
  `kmemCacheAllocNolock`, `kmemCacheFreeNolock` — the allocator
-/

namespace GoofyOs

/-- The three lists of a cache: `slab_full`, `slab_partial` and `slab_empty`. -/
inductive SlabList
  | full
  | part
  | empty
  deriving DecidableEq

/-- `struct kmem_cache`. The heads `slab_full`, `slab_partial`, `slab_empty` and the counters
`n_full`, `n_partial`, `n_empty` are indexed by the list. -/
structure KmemCache where
  size : ℕ
  order : ℕ
  slabs : SlabList → Option ℕ
  count : SlabList → ℤ

/-- `struct slab` without its list node, which is in `SlabState.slabList`. -/
structure Slab where
  cache : Option ℕ
  freelist : Option ℕ
  freeObjects : ℤ

/-- A resource that the error path of `kmem_cache_new_empty` gives back. -/
inductive SlabRelease
  | freePages (page : Option ℕ) (order : ℕ)
  | mempoolFree (slab : Option ℕ)
  deriving DecidableEq

/-- The memory the slab allocator works on. -/
structure SlabState where
  caches : ℕ → KmemCache
  slab : ℕ → Slab
  /-- `slab->slab_list` -/
  slabList : Links ℕ
  /-- `page->slab` -/
  pageSlab : ℕ → Option ℕ
  /-- the `next` field at the start of a free chunk -/
  chunkNext : ℕ → Option ℕ
  hhdmOffset : ℕ
  /-- the calls to `free_pages` and `mempool_free` -/
  released : List SlabRelease

namespace KmemCache

/-- `SLAB_SIZE`. -/
def slabSize (cache : KmemCache) : ℕ := pageSize <<< cache.order

/-- `N_OBJECTS`. -/
def nObjects (cache : KmemCache) : ℕ := cache.slabSize / cache.size

/-- The list that `kmem_insert_slab` chooses for a slab. -/
def listFor (cache : KmemCache) (freeObjects : ℤ) : SlabList :=
  if (cache.nObjects : ℤ) = freeObjects then .empty
  else if freeObjects = 0 then .full
  else .part

/-- A chunk has room for a list node, and a slab for a chunk. -/
structure WellFormed (cache : KmemCache) : Prop where
  room : 8 ≤ cache.size
  fits : cache.size ≤ cache.slabSize

instance (cache : KmemCache) : Decidable cache.WellFormed :=
  decidable_of_iff (8 ≤ cache.size ∧ cache.size ≤ cache.slabSize)
    ⟨fun h => ⟨h.1, h.2⟩, fun h => ⟨h.room, h.fits⟩⟩

end KmemCache

/-- `kmalloc_sizes` and `kmalloc_orders`, by cache. -/
def kmallocCaches : List (ℕ × ℕ) :=
  [(8, 0), (16, 0), (32, 0), (64, 0), (128, 0), (192, 1), (256, 1), (512, 1), (1024, 1), (2048, 2),
    (4096, 2), (8192, 3)]

/-- The caches that `slab_init` sets up are well formed. -/
theorem wellFormed_of_mem_kmallocCaches {cache : KmemCache}
    (h : (cache.size, cache.order) ∈ kmallocCaches) : cache.WellFormed := by
  have hall : ∀ p ∈ kmallocCaches, 8 ≤ p.1 ∧ p.1 ≤ pageSize <<< p.2 := by decide
  exact ⟨(hall _ h).1, (hall _ h).2⟩

namespace SlabState

variable (s : SlabState)

/-- The list heads of all caches. -/
def heads (i : ℕ × SlabList) : Option ℕ := (s.caches i.1).slabs i.2

/-- `page_to_virt`. -/
def pageToVirt (page : ℕ) : ℕ := (page <<< 12) + s.hhdmOffset

/-- `__hhdm_to_page`. -/
def hhdmToPage (addr : ℕ) : ℕ := (addr - s.hhdmOffset) >>> 12

/-- Assigning the head and the counter of one list of a cache. -/
def setList (c : ℕ) (k : SlabList) (head : Option ℕ) (count : ℤ) : SlabState :=
  { s with caches := Function.update s.caches c { s.caches c with
      slabs := Function.update (s.caches c).slabs k head
      count := Function.update (s.caches c).count k count } }

/-- Counting a slab in and `list_push_front`. -/
def pushSlab (c : ℕ) (k : SlabList) (slab : ℕ) : SlabState :=
  let r := listPushFront s.slabList ((s.caches c).slabs k) slab
  { s with slabList := r.1 }.setList c k r.2 ((s.caches c).count k + 1)

/-- `list_remove_node` and counting the slab out. -/
def removeSlab (c : ℕ) (k : SlabList) (slab : ℕ) : SlabState :=
  let r := listRemoveNode s.slabList ((s.caches c).slabs k) slab
  { s with slabList := r.1 }.setList c k r.2 ((s.caches c).count k - 1)

/-- `kmem_insert_slab`. -/
def kmemInsertSlab (slab : ℕ) : Option SlabState :=
  (s.slab slab).cache.map fun c =>
    s.pushSlab c ((s.caches c).listFor (s.slab slab).freeObjects) slab

/-- Assigning the freelist and `free_objects` of a slab. -/
def setFreelist (slab : ℕ) (freelist : Option ℕ) (freeObjects : ℤ) : SlabState :=
  { s with slab := Function.update s.slab slab { s.slab slab with
      freelist := freelist
      freeObjects := freeObjects } }

/-- `kmem_get_chunk_from_slab`. -/
def kmemGetChunkFromSlab (slab : ℕ) : Option (ℕ × SlabState) :=
  (slistPopFront s.chunkNext (s.slab slab).freelist).map fun r =>
    (r.1, s.setFreelist slab r.2 ((s.slab slab).freeObjects - 1))

/-- `kmem_cache_alloc_partial` and `kmem_cache_alloc_empty` differ in the list they pop from. -/
def kmemCacheAllocFrom (k : SlabList) (c : ℕ) : Option (ℕ × SlabState) := do
  let r ← listPopFront s.slabList ((s.caches c).slabs k)
  let s := s.setList c k r.2 ((s.caches c).count k - 1)
  let (chunk, s) ← s.kmemGetChunkFromSlab r.1
  let s ← s.kmemInsertSlab r.1
  pure (chunk, s)

/-- `kmem_cache_alloc_partial`. -/
def kmemCacheAllocPartial (c : ℕ) : Option (ℕ × SlabState) := s.kmemCacheAllocFrom .part c

/-- `kmem_cache_alloc_empty`. -/
def kmemCacheAllocEmpty (c : ℕ) : Option (ℕ × SlabState) := s.kmemCacheAllocFrom .empty c

/-- The loop `new_page[i].slab = new_slab`. -/
def assignPages (page slab : ℕ) (n : ℕ) : ℕ → Option ℕ :=
  (List.range n).foldl (fun f i => Function.update f (page + i) (some slab)) s.pageSlab

/-- The loop that pushes the chunks of a new slab on its freelist. -/
def carve (virtPage size n : ℕ) : (ℕ → Option ℕ) × Option ℕ :=
  (List.range n).foldl (fun r i => slistPushFront r.1 r.2 (virtPage + size * i))
    (s.chunkNext, none)

/-- `kmem_cache_new_empty`, given what `alloc_pages` and `mempool_zalloc` return. The new
`struct slab` is zeroed. On the error path both are released, whatever they are, and the function
ends without a value. -/
def kmemCacheNewEmpty (c : ℕ) (newPage newSlab : Option ℕ) : Option (Option ℤ × SlabState) :=
  match newPage, newSlab with
  | some page, some slab =>
    let cache := s.caches c
    let r := s.carve (s.pageToVirt page) cache.size cache.nObjects
    let s := { s with
      slab := Function.update s.slab slab ⟨some c, r.2, cache.nObjects⟩
      slabList :=
        { next := Function.update s.slabList.next slab none
          prev := Function.update s.slabList.prev slab none }
      pageSlab := s.assignPages page slab (1 <<< cache.order)
      chunkNext := r.1 }
    (s.kmemInsertSlab slab).map fun s => (some 0, s)
  | newPage, newSlab =>
    some (none, { s with released := s.released ++
      [.freePages newPage (s.caches c).order, .mempoolFree newSlab] })

/-- `kmem_cache_alloc_nolock`. -/
def kmemCacheAllocNolock (c : ℕ) (newPage newSlab : Option ℕ) :
    Option (Option ℕ × SlabState) :=
  if (s.caches c).count .part ≠ 0 then
    (s.kmemCacheAllocPartial c).map fun r => (some r.1, r.2)
  else if (s.caches c).count .empty ≠ 0 then
    (s.kmemCacheAllocEmpty c).map fun r => (some r.1, r.2)
  else do
    let (ret, s) ← s.kmemCacheNewEmpty c newPage newSlab
    let ret ← ret
    if ret ≠ 0 then pure (none, s)
    else (s.kmemCacheAllocEmpty c).map fun r => (some r.1, r.2)

/-- `kmem_cache_free_nolock`. -/
def kmemCacheFreeNolock (c chunk : ℕ) : Option SlabState := do
  let slab ← s.pageSlab (s.hhdmToPage chunk)
  let s := if (s.slab slab).freeObjects = 0 then s.removeSlab c .full slab else s
  let s := if (s.slab slab).freeObjects > 0 then s.removeSlab c .part slab else s
  let r := slistPushFront s.chunkNext (s.slab slab).freelist chunk
  let s := { s with chunkNext := r.1 }
  let s := s.setFreelist slab r.2 ((s.slab slab).freeObjects + 1)
  s.kmemInsertSlab slab

/-- `kmem_cache_alloc`. -/
def kmemCacheAlloc (c : ℕ) (newPage newSlab : Option ℕ) : Option (Option ℕ × SlabState) :=
  s.kmemCacheAllocNolock c newPage newSlab

/-- `kmem_cache_free`. -/
def kmemCacheFree (c chunk : ℕ) : Option SlabState := s.kmemCacheFreeNolock c chunk

end SlabState

end GoofyOs
