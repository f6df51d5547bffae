import GoofyOs.LockSmp

/-!
# The locks of the kernel

Which locks each function takes, and what it calls while it has them. The functions that are not
here call these and hold no lock themselves.

`kzalloc` is declared and nowhere defined; it is taken to do what `kmalloc` does. Branches that end
in `hcf` are left out.

## Main definitions

* `KernelLock`, `KernelLock.rank` — the locks and their order
* `LockingFn`, `LockingFn.locks` — the functions that take them

## Main results

* `kernel_no_deadlock` — no deadlock, as long as no function returns with a lock and what is
  preempted in `pushcli` goes on where it is counted
-/

namespace GoofyOs

/-- A `struct spinlock`. -/
inductive KernelLock
  | vnode (n : ℕ)
  | vfs (n : ℕ)
  | vmalloc
  | pageTable (n : ℕ)
  | cache (i : ℕ)
  | mempool (n : ℕ)
  | kmem
  | printk
  | fbcon
  | scheduler
  deriving DecidableEq

/-- A lock is only taken by a CPU whose locks have higher ranks. -/
def KernelLock.rank : KernelLock → ℕ
  | vnode _ => 8
  | vmalloc => 7
  | pageTable _ => 6
  | cache _ => 5
  | mempool _ => 4
  | kmem => 3
  | printk => 2
  | fbcon => 1
  | vfs _ | scheduler => 0

namespace Locks

/-! ### The console -/

/-- `console_write`. -/
def consoleWrite : LockUse KernelLock := .locked .fbcon .skip

/-- `printk`. -/
def printk : LockUse KernelLock := .locked .printk (.alt consoleWrite .skip)

/-! ### Pages -/

/-- `free_pages`, and so `free_page` and `pgfree`. -/
def freePages : LockUse KernelLock := .locked .kmem .skip

/-- `alloc_pages`, and so `pgalloc` and `pgzalloc`. -/
def allocPages : LockUse KernelLock := .alt printk (.locked .kmem .skip)

/-! ### Objects -/

/-- `mempool_alloc`, and so `mempool_zalloc`. -/
def mempoolAlloc (n : ℕ) : LockUse KernelLock := .locked (.mempool n) (.alt .skip allocPages)

/-- `mempool_free`. -/
def mempoolFree (n : ℕ) : LockUse KernelLock := .locked (.mempool n) (.alt .skip freePages)

/-- `kmem_insert_slab`. -/
def kmemInsertSlab : LockUse KernelLock := .seq printk (.alt .skip printk)

/-- `kmem_cache_alloc_partial` and `kmem_cache_alloc_empty`. -/
def kmemCacheAllocSlab : LockUse KernelLock := .seq printk kmemInsertSlab

/-- `kmem_cache_new_empty`, with `slab_mempool` as number 0. -/
def kmemCacheNewEmpty : LockUse KernelLock :=
  .seq allocPages (.seq (mempoolAlloc 0) (.alt kmemInsertSlab (.seq freePages (mempoolFree 0))))

/-- `kmem_cache_alloc`. -/
def kmemCacheAlloc (i : ℕ) : LockUse KernelLock :=
  .locked (.cache i) (.alt kmemCacheAllocSlab (.alt kmemCacheAllocSlab
    (.seq kmemCacheNewEmpty (.alt .skip kmemCacheAllocSlab))))

/-- `kmem_cache_free`. -/
def kmemCacheFree (i : ℕ) : LockUse KernelLock := .locked (.cache i) kmemInsertSlab

/-- `kmalloc`, and so `kzalloc`, `strdup` and the push functions of `struct dlist`. -/
def kmalloc : LockUse KernelLock := .alt .skip (.anyOf kmemCacheAlloc)

/-- `kfree`, and so the pop functions of `struct dlist`. -/
def kfree : LockUse KernelLock := .anyOf kmemCacheFree

/-! ### Page tables -/

/-- `map_page`. -/
def mapPage (pt : ℕ) : LockUse KernelLock := .locked (.pageTable pt) (.loop allocPages)

/-- `unmap_page`, which returns with the lock if a table is missing. -/
def unmapPage (pt : ℕ) : LockUse KernelLock :=
  .alt (.leaks (.pageTable pt) .skip) (.locked (.pageTable pt) .skip)

/-- `is_mapped`. -/
def isMapped (pt : ℕ) : LockUse KernelLock := .locked (.pageTable pt) (.loop printk)

/-! ### `vmalloc` -/

/-- `_vmalloc`, with `kernel_virtual_pt` as number 0. -/
def _vmalloc : LockUse KernelLock :=
  .seq (.alt .skip kmalloc) (.loop (.seq allocPages (mapPage 0)))

/-- `vmalloc`, and so `vzalloc` and `vmalloc_flags`. -/
def vmalloc : LockUse KernelLock := .locked .vmalloc _vmalloc

/-- `_vrelease_pages`. -/
def _vreleasePages : LockUse KernelLock := .loop (.seq freePages (unmapPage 0))

/-- `_vfree`. -/
def _vfree : LockUse KernelLock := .alt .skip (.seq printk (.seq printk _vreleasePages))

/-- `vfree`. -/
def vfree : LockUse KernelLock := .locked .vmalloc _vfree

/-- `vmap_contiguous`. -/
def vmapContiguous : LockUse KernelLock := .locked .vmalloc (.seq _vmalloc (.loop (mapPage 0)))

/-- `vunmap_contiguous`, which returns with the lock if it finds the range. -/
def vunmapContiguous : LockUse KernelLock := .alt (.leaks .vmalloc .skip) (.locked .vmalloc .skip)

/-! ### Files -/

/-- `hmap_resize`. -/
def hmapResize : LockUse KernelLock := .seq vmalloc (.seq (.loop (.seq kfree kmalloc)) vfree)

/-- `hmap_add`. -/
def hmapAdd : LockUse KernelLock := .seq (.alt .skip hmapResize) (.seq kmalloc kmalloc)

/-- `tmpfs_mkdir` and `tmpfs_create`, which return with the lock if the name exists. -/
def tmpfsMkdir (node vfs : ℕ) : LockUse KernelLock :=
  .alt (.leaks (.vnode node) .skip) (.locked (.vnode node)
    (.seq kmalloc (.seq kmalloc (.seq kmalloc (.seq (.locked (.vfs vfs) .skip)
      (.seq kmalloc hmapAdd))))))

/-- `tmpfs_lookup`. -/
def tmpfsLookup (node : ℕ) : LockUse KernelLock := .locked (.vnode node) .skip

/-! ### Tasks -/

/-- `sched_task`, and `schedule` up to `go_to_task`. -/
def schedTask : LockUse KernelLock := .locked .scheduler .skip

end Locks

/-- A function that takes a lock when its caller has none. -/
inductive LockingFn
  | printk
  | allocPages
  | freePages
  | mempoolAlloc (n : ℕ)
  | mempoolFree (n : ℕ)
  | kmemCacheAlloc (i : ℕ)
  | kmemCacheFree (i : ℕ)
  | mapPage (pt : ℕ)
  | unmapPage (pt : ℕ)
  | isMapped (pt : ℕ)
  | vmalloc
  | vfree
  | vmapContiguous
  | vunmapContiguous
  | tmpfsMkdir (node vfs : ℕ)
  | tmpfsCreate (node vfs : ℕ)
  | tmpfsLookup (node : ℕ)
  | schedTask
  | schedule

/-- The locks that it takes. -/
def LockingFn.locks : LockingFn → LockUse KernelLock
  | printk => Locks.printk
  | allocPages => Locks.allocPages
  | freePages => Locks.freePages
  | mempoolAlloc n => Locks.mempoolAlloc n
  | mempoolFree n => Locks.mempoolFree n
  | kmemCacheAlloc i => Locks.kmemCacheAlloc i
  | kmemCacheFree i => Locks.kmemCacheFree i
  | mapPage pt => Locks.mapPage pt
  | unmapPage pt => Locks.unmapPage pt
  | isMapped pt => Locks.isMapped pt
  | vmalloc => Locks.vmalloc
  | vfree => Locks.vfree
  | vmapContiguous => Locks.vmapContiguous
  | vunmapContiguous => Locks.vunmapContiguous
  | tmpfsMkdir node vfs | tmpfsCreate node vfs => Locks.tmpfsMkdir node vfs
  | tmpfsLookup node => Locks.tmpfsLookup node
  | schedTask | schedule => Locks.schedTask

/-- What one of the functions may do, if it does not return with a lock. -/
def KernelWork (t : List (LockAction KernelLock)) : Prop :=
  ∃ f : LockingFn, f.locks.tidy.Trace t

namespace Locks

open KernelLock

/-! ### The order -/

theorem ordered_printk : printk.tidy.Ordered rank 3 := by
  simp [printk, consoleWrite, LockUse.tidy, LockUse.Ordered, rank]

theorem ordered_freePages : freePages.tidy.Ordered rank 4 := by
  simp [freePages, LockUse.tidy, LockUse.Ordered, rank]

theorem ordered_allocPages : allocPages.tidy.Ordered rank 4 :=
  ⟨.mono ordered_printk (by decide), ordered_freePages⟩

theorem ordered_mempoolAlloc (n : ℕ) : (mempoolAlloc n).tidy.Ordered rank 5 :=
  ⟨(by decide : 4 < 5), trivial, ordered_allocPages⟩

theorem ordered_mempoolFree (n : ℕ) : (mempoolFree n).tidy.Ordered rank 5 :=
  ⟨(by decide : 4 < 5), trivial, ordered_freePages⟩

theorem ordered_kmemInsertSlab : kmemInsertSlab.tidy.Ordered rank 3 :=
  ⟨ordered_printk, trivial, ordered_printk⟩

theorem ordered_kmemCacheAllocSlab : kmemCacheAllocSlab.tidy.Ordered rank 3 :=
  ⟨ordered_printk, ordered_kmemInsertSlab⟩

theorem ordered_kmemCacheNewEmpty : kmemCacheNewEmpty.tidy.Ordered rank 5 :=
  ⟨.mono ordered_allocPages (by decide), ordered_mempoolAlloc 0,
    .mono ordered_kmemInsertSlab (by decide), .mono ordered_freePages (by decide),
    ordered_mempoolFree 0⟩

theorem ordered_kmemCacheAlloc (i : ℕ) : (kmemCacheAlloc i).tidy.Ordered rank 6 := by
  have hslab := LockUse.Ordered.mono ordered_kmemCacheAllocSlab (by decide : 3 ≤ 5)
  exact ⟨(by decide : 5 < 6), hslab, hslab, ordered_kmemCacheNewEmpty, trivial, hslab⟩

theorem ordered_kmemCacheFree (i : ℕ) : (kmemCacheFree i).tidy.Ordered rank 6 :=
  ⟨(by decide : 5 < 6), .mono ordered_kmemInsertSlab (by decide : 3 ≤ 5)⟩

theorem ordered_kmalloc : kmalloc.tidy.Ordered rank 6 := ⟨trivial, ordered_kmemCacheAlloc⟩

theorem ordered_kfree : kfree.tidy.Ordered rank 6 := ordered_kmemCacheFree

theorem ordered_mapPage (pt : ℕ) : (mapPage pt).tidy.Ordered rank 7 :=
  ⟨(by decide : 6 < 7), .mono ordered_allocPages (by decide : 4 ≤ 6)⟩

theorem ordered_unmapPage (pt : ℕ) : (unmapPage pt).tidy.Ordered rank 7 :=
  ⟨trivial, (by decide : 6 < 7), trivial⟩

theorem ordered_isMapped (pt : ℕ) : (isMapped pt).tidy.Ordered rank 7 :=
  ⟨(by decide : 6 < 7), .mono ordered_printk (by decide : 3 ≤ 6)⟩

theorem ordered_vmalloc_nolock : _vmalloc.tidy.Ordered rank 7 :=
  ⟨⟨trivial, .mono ordered_kmalloc (by decide)⟩, .mono ordered_allocPages (by decide),
    ordered_mapPage 0⟩

theorem ordered_vmalloc : vmalloc.tidy.Ordered rank 8 := ⟨by decide, ordered_vmalloc_nolock⟩

theorem ordered_vfree_nolock : _vfree.tidy.Ordered rank 7 :=
  ⟨trivial, .mono ordered_printk (by decide), .mono ordered_printk (by decide),
    .mono ordered_freePages (by decide), ordered_unmapPage 0⟩

theorem ordered_vfree : vfree.tidy.Ordered rank 8 := ⟨by decide, ordered_vfree_nolock⟩

theorem ordered_vmapContiguous : vmapContiguous.tidy.Ordered rank 8 :=
  ⟨by decide, ordered_vmalloc_nolock, ordered_mapPage 0⟩

theorem ordered_hmapAdd : hmapAdd.tidy.Ordered rank 8 := by
  have hkmalloc := LockUse.Ordered.mono ordered_kmalloc (by decide : 6 ≤ 8)
  have hkfree := LockUse.Ordered.mono ordered_kfree (by decide : 6 ≤ 8)
  exact ⟨⟨trivial, ordered_vmalloc, ⟨hkfree, hkmalloc⟩, ordered_vfree⟩, hkmalloc, hkmalloc⟩

theorem ordered_tmpfsMkdir (node vfs : ℕ) : (tmpfsMkdir node vfs).tidy.Ordered rank 9 := by
  have hkmalloc := LockUse.Ordered.mono ordered_kmalloc (by decide : 6 ≤ 8)
  exact ⟨trivial, (by decide : 8 < 9), hkmalloc, hkmalloc, hkmalloc,
    ⟨(by decide : 0 < 8), trivial⟩, hkmalloc, ordered_hmapAdd⟩

end Locks

open Locks in
/-- **The order of the locks**: every function keeps to it. -/
theorem LockingFn.ordered (f : LockingFn) : f.locks.tidy.Ordered KernelLock.rank 9 := by
  cases f with
  | printk => exact .mono ordered_printk (by decide)
  | allocPages => exact .mono ordered_allocPages (by decide)
  | freePages => exact .mono ordered_freePages (by decide)
  | mempoolAlloc n => exact (ordered_mempoolAlloc n).mono (by decide)
  | mempoolFree n => exact (ordered_mempoolFree n).mono (by decide)
  | kmemCacheAlloc i => exact (ordered_kmemCacheAlloc i).mono (by decide)
  | kmemCacheFree i => exact (ordered_kmemCacheFree i).mono (by decide)
  | mapPage pt => exact (ordered_mapPage pt).mono (by decide)
  | unmapPage pt => exact (ordered_unmapPage pt).mono (by decide)
  | isMapped pt => exact (ordered_isMapped pt).mono (by decide)
  | vmalloc => exact .mono ordered_vmalloc (by decide)
  | vfree => exact .mono ordered_vfree (by decide)
  | vmapContiguous => exact .mono ordered_vmapContiguous (by decide)
  | vunmapContiguous => exact ⟨trivial, by decide, trivial⟩
  | tmpfsMkdir node vfs | tmpfsCreate node vfs => exact ordered_tmpfsMkdir node vfs
  | tmpfsLookup node => exact ⟨(by decide : 8 < 9), trivial⟩
  | schedTask | schedule => exact ⟨by decide, trivial⟩

theorem KernelLock.rank_lt (l : KernelLock) : l.rank < 9 := by
  cases l <;> simp [rank]

/-- **The kernel does not deadlock** as long as no function returns with a lock, and a task that is
preempted in `pushcli` goes on where it is counted. On any number of CPUs, with any interrupts and
any tasks that are preempted and resumed, no CPU is interrupted while it has a lock or waits for
one, no two CPUs have the same one, and all calls that have started, on all CPUs and in the code
that was interrupted, can come to their ends. -/
theorem kernel_no_deadlock {κ : Type*} [Finite κ] [DecidableEq κ]
    {es : List (LockSmpEvent κ KernelLock)} {s : LockSmp κ KernelLock}
    (hlen : es.length + 11 < 2 ^ 64)
    (hr : Run LockSmp.step (LockSmp.Works KernelWork) .boot es s) :
    (∀ i, (s.cpus i).held ≠ [] ∨ (s.cpus i).stage = .masked → (s.cpus i).flag = false) ∧
      (∀ i j l, l ∈ (s.cpus i).held → l ∈ (s.cpus j).held → i = j) ∧
      ∃ ds s', Run LockSmp.step LockSmp.Finishes s ds s' ∧ (∀ l, s'.locked l = false) ∧
        ∀ i, (s'.cpus i).todo = [] ∧ (s'.cpus i).frames = [] ∧ (s'.cpus i).held = [] :=
  LockSmp.no_deadlock KernelLock.rank_lt (by omega) (fun _ ⟨f, ht⟩ => ht.ranked f.ordered) hr

/-- A task that allocates from a pool is preempted behind `cli_count++`, and goes on after another
one. It gets the lock of the pool, and waits for the other CPU, which frees pages. -/
theorem kernel_no_deadlock_two : ∃ s : LockSmp Bool KernelLock,
    (s.cpus true).held = [.mempool 0] ∧ (s.cpus true).stage = .masked ∧
    (s.cpus false).held = [.kmem] ∧
    (∀ i, (s.cpus i).held ≠ [] ∨ (s.cpus i).stage = .masked → (s.cpus i).flag = false) ∧
    (∀ i j l, l ∈ (s.cpus i).held → l ∈ (s.cpus j).held → i = j) ∧
    ∃ ds s', Run LockSmp.step LockSmp.Finishes s ds s' ∧ (∀ l, s'.locked l = false) ∧
      ∀ i, (s'.cpus i).todo = [] ∧ (s'.cpus i).frames = [] ∧ (s'.cpus i).held = [] := by
  have hkmem : (Locks.freePages).tidy.Trace [.take .kmem, .drop .kmem] :=
    LockUse.Trace.locked (t := []) .skip
  have hfree : KernelWork [.take .kmem, .drop .kmem] := ⟨.freePages, hkmem⟩
  have hinner : (LockUse.alt .skip Locks.allocPages).tidy.Trace [.take .kmem, .drop .kmem] :=
    .inr (.inr hkmem)
  have halloc : KernelWork [.take (.mempool 0), .take .kmem, .drop .kmem, .drop (.mempool 0)] :=
    ⟨.mempoolAlloc 0, hinner.locked⟩
  have hsched : KernelWork [.take .scheduler, .drop .scheduler] :=
    ⟨.schedule, LockUse.Trace.locked (t := []) .skip⟩
  let idle : LockContext Bool KernelLock := ⟨⟨true, .outside, []⟩, []⟩
  let task : LockContext Bool KernelLock :=
    ⟨⟨true, .counted, [.take (.mempool 0), .take .kmem, .drop .kmem, .drop (.mempool 0)]⟩, []⟩
  have hidle (n : BitVec 64) : idle.FitsOn true n :=
    ⟨by simp [idle, LockContext.codes, LockCode.On], Nat.zero_le _⟩
  have htask (n : BitVec 64) (hn : 1 ≤ n.toNat) : task.FitsOn true n :=
    ⟨by simp [task, LockContext.codes, LockCode.On], hn⟩
  obtain ⟨s, htrue, hstage, hfalse, hr⟩ : ∃ s : LockSmp Bool KernelLock,
      (s.cpus true).held = [.mempool 0] ∧ (s.cpus true).stage = .masked ∧
      (s.cpus false).held = [.kmem] ∧ Run LockSmp.step (LockSmp.Works KernelWork) .boot
        [.scheduleBsp true, .sti true,
          .start true [.take (.mempool 0), .take .kmem, .drop .kmem, .drop (.mempool 0)],
          .currentCpuid true, .count true,
          .interrupt true [.take .scheduler, .drop .scheduler],
          .currentCpuid true, .count true, .cli true, .xchg true, .release true,
          .goToTask true idle,
          .interrupt true [.take .scheduler, .drop .scheduler],
          .currentCpuid true, .count true, .cli true, .xchg true, .release true,
          .goToTask true task, .cli true, .xchg true,
          .start false [.take .kmem, .drop .kmem],
          .currentCpuid false, .count false, .cli false, .xchg false,
          .currentCpuid true, .count true, .cli true] s :=
    ⟨_, rfl, rfl, rfl, .cons trivial rfl <| .cons trivial rfl <| .cons halloc rfl <|
      .cons trivial rfl <| .cons trivial rfl <| .cons hsched rfl <|
      .cons trivial rfl <| .cons trivial rfl <| .cons trivial rfl <| .cons trivial rfl <|
      .cons trivial rfl <| .cons ⟨.inr ⟨rfl, rfl, rfl⟩, hidle _⟩ rfl <| .cons hsched rfl <|
      .cons trivial rfl <| .cons trivial rfl <| .cons trivial rfl <| .cons trivial rfl <|
      .cons trivial rfl <|
      .cons ⟨.inl (List.mem_cons_of_mem _ List.mem_cons_self), htask _ (by decide)⟩ rfl <|
      .cons trivial rfl <| .cons trivial rfl <| .cons hfree rfl <|
      .cons trivial rfl <| .cons trivial rfl <| .cons trivial rfl <| .cons trivial rfl <|
      .cons trivial rfl <| .cons trivial rfl <| .cons trivial rfl <| .nil _⟩
  exact ⟨s, htrue, hstage, hfalse, kernel_no_deadlock (by decide) hr⟩

/-- Elsewhere it is not counted: the first `release` lets interrupts in while there is a lock. -/
example : ∃ s : LockSmp Bool KernelLock, (s.cpus false).held = [.vmalloc] ∧
    (s.cpus false).flag = true ∧ Run LockSmp.step (fun _ _ => True) .boot
      [.scheduleBsp true, .sti true, .start true [.take .vmalloc, .take .kmem, .drop .kmem],
        .currentCpuid true, .count true, .interrupt true [],
        .goToTask true ⟨⟨true, .outside, []⟩, []⟩, .scheduleBsp false,
        .goToTask false ⟨⟨true, .counted, [.take .vmalloc, .take .kmem, .drop .kmem]⟩, []⟩,
        .cli false, .xchg false, .currentCpuid false, .count false, .cli false, .xchg false,
        .release false] s :=
  ⟨_, rfl, rfl, .cons trivial rfl <| .cons trivial rfl <| .cons trivial rfl <|
    .cons trivial rfl <| .cons trivial rfl <| .cons trivial rfl <| .cons trivial rfl <|
    .cons trivial rfl <| .cons trivial rfl <| .cons trivial rfl <| .cons trivial rfl <|
    .cons trivial rfl <| .cons trivial rfl <| .cons trivial rfl <| .cons trivial rfl <|
    .cons trivial rfl <| .nil _⟩

end GoofyOs
