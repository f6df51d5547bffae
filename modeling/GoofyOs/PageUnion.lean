import GoofyOs.BuddyRun
import GoofyOs.Mempool
import GoofyOs.SlabBlocks

/-!
# The union in `struct page`

The word of a page in which the buddy allocator keeps `buddy_list.next` is `page->slab` while a slab
owns the page, and `page->mempool` while a pool does. Here the two allocators and the pool of
`struct slab`s run on one memory, in which these are one word.

`list_pop_front` leaves the `prev` field of the new front page naming the page that was popped. When
that front page is unlinked later, for a merge, the write to `prev->next` goes into the popped page,
and that page may belong to a slab by then. `Spares` says of a call of `free_pages` that this does not
happen.

Pages are named by frame number, and slabs and `slab_mempool` by address. In the source a list function
that follows one of these addresses as a `struct list_head` writes into the `struct slab`; here it writes
to a page that does not exist. It comes to that only after a page in use was taken for a free one, which
`CleanFree` excludes. `n_free` is kept apart from `buddy_list.prev`, whose storage it shares, as no block
of the pool is ever listed again.

## Main definitions

* `Mm` — the memory of the allocators, with the shared word
* `Mm.allocPages`, `Mm.freePages`, `Mm.kmalloc`, `Mm.kfree` — the calls
* `MmSys`, `MmCall` — the allocators with the blocks, slabs and chunks in use
* `BuddyState.Spares` — no merge writes into a given set of pages through a stale back pointer

## Main results

* `BuddyState.Owned.next_freePagesAux`, `BuddyState.Owned.next_allocPages` — the words that calls of the
  buddy allocator keep
* `mm_run_kept` — the pages of slabs keep `page->slab` in every run of clean calls
-/

namespace GoofyOs

open LinkedList ListHead

/-- `sizeof(struct slab)`. -/
def sizeofSlab : ℕ := 40

/-- The memory of `mm/buddy.c`, `mm/slab.c` and `slab_mempool`. One word of `struct page` is both
`buddy_list.next` and `slab`. -/
structure Mm where
  buddy : BuddyState
  slabs : SlabState
  pool : MempoolState
  /-- `&slab_mempool` -/
  slabMempool : ℕ
  union : slabs.pageSlab = buddy.links.next

/-- `kmalloc_idx`. -/
def kmallocIdx (size : ℕ) : ℕ :=
  if size ≤ 8 then 0
  else if size ≤ 16 then 1
  else if size ≤ 32 then 2
  else if size ≤ 64 then 3
  else if size ≤ 128 then 4
  else if size ≤ 192 then 5
  else if size ≤ 256 then 6
  else if size ≤ 512 then 7
  else if size ≤ 1024 then 8
  else if size ≤ 2048 then 9
  else if size ≤ 4096 then 10
  else if size ≤ 8192 then 11
  else size

namespace Mm

variable (m : Mm)

/-- The memory after the buddy allocator has written. -/
def setBuddy (b : BuddyState) : Mm :=
  { m with buddy := b, slabs := { m.slabs with pageSlab := b.links.next }, union := rfl }

/-- The memory after the slab allocator has written. -/
def setSlabs (st : SlabState) : Mm :=
  { m with
    buddy := { m.buddy with links := { m.buddy.links with next := st.pageSlab } }
    slabs := st
    union := rfl }

/-- `alloc_pages`. -/
def allocPages (order : ℕ) (flags : BitVec 32) : Option (Option ℕ × Mm) :=
  (m.buddy.allocPages order flags).map fun r => (r.1, m.setBuddy r.2)

/-- `free_pages`. -/
def freePages (page order : ℕ) : Mm := m.setBuddy (m.buddy.freePages page order)

/-- The loop `page[i].mempool = mempool` over a new block of the pool. -/
def assignMempool (page : Option ℕ) : Mm :=
  match page with
  | none => m
  | some page => m.setSlabs { m.slabs with
      pageSlab := m.slabs.assignPages page m.slabMempool (1 <<< m.pool.order) }

/-- `mempool_alloc(&slab_mempool)`. -/
def mempoolAlloc : Option (Option ℕ × Mm) :=
  if m.pool.count > 0 then
    (m.pool.mempoolAllocNolock none).map fun r => (r.1, { m with pool := r.2 })
  else do
    let (page, m) ← m.allocPages m.pool.order buddyZero
    let m := m.assignMempool page
    (m.pool.mempoolAllocNolock page).map fun r => (r.1, { m with pool := r.2 })

/-- `mempool_zalloc(&slab_mempool)`. The `memset` faults on a null pointer. -/
def mempoolZalloc : Option (ℕ × Mm) := do
  let (chunk, m) ← m.mempoolAlloc
  let chunk ← chunk
  pure (chunk, m)

/-- The two allocations at the start of `kmem_cache_new_empty`. -/
def supply (c : ℕ) : Option (Option ℕ × ℕ × Mm) := do
  let (page, m) ← m.allocPages (m.slabs.caches c).order 0
  let (slab, m) ← m.mempoolZalloc
  pure (page, slab, m)

/-- `kmem_cache_alloc`. -/
def kmemCacheAlloc (c : ℕ) : Option (Option ℕ × Mm) :=
  if m.slabs.NeedsSlab c then do
    let (page, slab, m) ← m.supply c
    (m.slabs.kmemCacheAlloc c page (some slab)).map fun r => (r.1, m.setSlabs r.2)
  else (m.slabs.kmemCacheAlloc c none none).map fun r => (r.1, m.setSlabs r.2)

/-- `kmalloc`. -/
def kmalloc (size : ℕ) : Option (Option ℕ × Mm) :=
  if size > 8192 then some (none, m) else m.kmemCacheAlloc (kmallocIdx size)

/-- `kfree`. -/
def kfree (chunk : ℕ) : Option Mm := do
  let slab ← m.slabs.pageSlab (m.slabs.hhdmToPage chunk)
  let cache ← (m.slabs.slab slab).cache
  let st ← m.slabs.kmemCacheFree cache chunk
  pure (m.setSlabs st)

/-- The slabs after a call of `kmalloc`. -/
def slabsAfter (blocks : List SlabBlock) (size : ℕ) : List SlabBlock :=
  if size > 8192 then blocks
  else if m.slabs.NeedsSlab (kmallocIdx size) then
    match m.supply (kmallocIdx size) with
    | some (some page, slab, _) => ⟨kmallocIdx size, page, slab⟩ :: blocks
    | _ => blocks
  else blocks

/-- The memory when `slab_init` has set up `slab_mempool` and the caches, and no page, slab or chunk is
in use. -/
structure Booted (m : Mm) (L : ℕ → List ℕ) : Prop where
  consistent : m.buddy.Consistent L
  zonesFit : m.buddy.ZonesFit
  noSlabs : m.slabs.NoSlabs
  caches : ∀ c < 12, kmallocCaches[c]? = some ((m.slabs.caches c).size, (m.slabs.caches c).order)
  pool : m.pool.mempoolInit sizeofSlab 1 = some m.pool
  hhdmOffset : m.pool.hhdmOffset = m.slabs.hhdmOffset

end Mm

/-! ### Runs -/

/-- The allocators; the blocks of pages that their callers hold, with the orders; the slabs; and the
chunks in use. -/
structure MmSys where
  mem : Mm
  pages : List (ℕ × ℕ)
  slabs : List SlabBlock
  chunks : Finset ℕ

/-- What a caller can ask for. -/
inductive MmCall
  | allocPages (order : ℕ) (flags : BitVec 32)
  | freePages (page order : ℕ)
  | kmalloc (size : ℕ)
  | kfree (chunk : ℕ)

namespace MmSys

/-- One call. -/
def exec (s : MmSys) : MmCall → Option MmSys
  | .allocPages order flags => (s.mem.allocPages order flags).map fun r =>
    { s with mem := r.2, pages := r.1.toList.map (·, order) ++ s.pages }
  | .freePages page order => some
    { s with mem := s.mem.freePages page order, pages := s.pages.erase (page, order) }
  | .kmalloc size => (s.mem.kmalloc size).map fun r =>
    { s with
      mem := r.2
      slabs := s.mem.slabsAfter s.slabs size
      chunks := r.1.elim s.chunks fun y => insert y s.chunks }
  | .kfree chunk => (s.mem.kfree chunk).map fun m =>
    { s with mem := m, chunks := s.chunks.erase chunk }

/-- A caller frees only what it holds, blocks of pages with the order it asked for. -/
def Allowed (s : MmSys) : MmCall → Prop
  | .allocPages _ _ => True
  | .freePages page order => (page, order) ∈ s.pages
  | .kmalloc _ => True
  | .kfree chunk => chunk ∈ s.chunks

instance (s : MmSys) : (call : MmCall) → Decidable (s.Allowed call)
  | .allocPages _ _ => instDecidableTrue
  | .freePages page order => inferInstanceAs (Decidable ((page, order) ∈ s.pages))
  | .kmalloc _ => instDecidableTrue
  | .kfree chunk => inferInstanceAs (Decidable (chunk ∈ s.chunks))

end MmSys

/-! ### The words that the buddy allocator writes -/

namespace BuddyState

variable {s s' : BuddyState} {L : ℕ → List ℕ} {live : List (ℕ × ℕ)} {W : Set ℕ} {k n p q w : ℕ}

/-- No merge of a `free_pages_nolock` call unlinks a front page whose stale back pointer names a page
of `W`. -/
def Spares (W : Set ℕ) : ℕ → BuddyState → ℕ → ℕ → Prop
  | 0, _, _, _ => True
  | n + 1, s, pfn, order =>
    let buddyPfn := asUint (getBuddy pfn order)
    s.MergeTest buddyPfn order →
      (s.heads order = some buddyPfn → ∀ y, s.links.prev buddyPfn = some y → y ∉ W) ∧
        Spares W n (s.removeFromFreelist buddyPfn) (min pfn buddyPfn) (order + 1)

/-- The page lies in a block that is in use. -/
def InUse (live : List (ℕ × ℕ)) (w : ℕ) : Prop := ∃ b ∈ live, w ∈ Dyadic.block b.1 b.2

namespace Owned

theorem not_mem_of_inUse (ho : s.Owned L live) (hw : InUse live w) (k : ℕ) : w ∉ L k := by
  intro hwk
  obtain ⟨b, hb, hwb⟩ := hw
  exact Set.disjoint_left.mp (ho.cross_disj hwk hb) (Dyadic.self_mem_block w k) hwb

theorem ne_of_inUse (ho : s.Owned L ((p, k) :: live)) (hw : InUse live w)
    (hq : q ∈ Dyadic.block p k) : w ≠ q := by
  rintro rfl
  obtain ⟨b, hb, hwb⟩ := hw
  exact Set.disjoint_left.mp ((List.pairwise_cons.mp ho.live_disj).1 b hb) hq hwb

/-- **The words of blocks in use do not matter to the free lists**, so their owners may write them. -/
theorem setNext (ho : s.Owned L live) {f : ℕ → Option ℕ}
    (hf : ∀ w, ¬ InUse live w → f w = s.links.next w) :
    ({ s with links := { s.links with next := f } } : BuddyState).Owned L live :=
  { ho with
    rep := ho.rep.congr (fun i w hw => hf w fun hin => ho.not_mem_of_inUse hin i hw) fun _ _ _ => rfl
    listed_block := fun h => ⟨(ho.listed_block h).aligned, (ho.listed_block h).valid⟩
    live_block := fun h =>
      ⟨(ho.live_block h).1, (ho.live_block h).2.aligned, (ho.live_block h).2.valid⟩ }

/-- Unlinking a listed page writes the words of listed pages and the one that a stale back pointer
names. -/
theorem next_removeFromFreelist (ho : s.Owned L live) (hp : p ∈ L k)
    (hs : s.heads k = some p → ∀ y, s.links.prev p = some y → y ∉ W) (hw : InUse live w)
    (hwW : w ∈ W) : (s.removeFromFreelist p).links.next w = s.links.next w := by
  obtain ⟨-, hk⟩ := ho.free hp
  subst hk
  have hne : w ≠ p := by
    rintro rfl
    exact ho.not_mem_of_inUse hw _ hp
  refine (listRemoveNode_next _ (s.heads (s.buddyOrder p)) _ _).trans ?_
  rw [if_neg hne, if_neg fun hprev => ?_]
  obtain ⟨as, bs, hL⟩ := List.append_of_mem hp
  rcases as.eq_nil_or_concat' with rfl | ⟨as, a, rfl⟩
  · have hhead : s.heads (s.buddyOrder p) = some p := by
      rw [(ho.rep.walk _).head_eq, hL]
      rfl
    exact hs hhead w hprev hwW
  · have hback : Back s.links.prev ((as ++ [a]) ++ p :: bs) := hL ▸ ho.rep.back _
    have ha := hback.prev_eq (List.getLast?_concat ..)
    obtain rfl : a = w := Option.some.inj (ha.symm.trans hprev)
    exact ho.not_mem_of_inUse hw (s.buddyOrder p) (by simp [hL])

/-- **A clean free keeps the words** of the blocks in use whose pages it spares. The induction follows
the merges. -/
theorem next_freePagesAux (ho : s.Owned L ((p, k) :: live)) (hz : s.ZonesFit)
    (hc : CleanFree n s p k) (hs : Spares W n s p k) (hw : InUse live w) (hwW : w ∈ W) :
    (BuddyState.freePagesAux n s p k).links.next w = s.links.next w := by
  induction n generalizing s L p k with
  | zero => rfl
  | succ n ih =>
    obtain ⟨hk, hb⟩ := ho.live_block (b := (p, k)) (by simp)
    by_cases h : s.MergeTest (asUint (getBuddy p k)) k
    · obtain ⟨⟨xs, hx⟩, hclean, hrest⟩ := hc h
      obtain ⟨hsparse, hsrest⟩ := hs h
      rw [freePagesAux_of_merge h]
      have hbuddy := asUint_getBuddy (hb.start_lt hz) hk
      rw [hbuddy] at hx hclean hrest hsparse hsrest ⊢
      have hmem : Dyadic.buddy p k ∈ L k := (ho.rep.walk k).unique hx.1 ▸ hx.2
      have ho' := (ho.removeFromFreelist hz hmem hclean).perm (.swap ..)
      rw [ih (ho'.merge (lt_of_le_of_ne hk h.2.2.2)) (hz.congr rfl) hrest hsrest]
      obtain ⟨b, hb, hwb⟩ := hw
      exact ho.next_removeFromFreelist hmem hsparse ⟨b, .tail _ hb, hwb⟩ hwW
    · rw [freePagesAux_of_not_merge h]
      refine (listPushFront_next _ _ _ _).trans (if_neg ?_)
      exact ho.ne_of_inUse hw (Dyadic.self_mem_block p k)

/-- **An allocation keeps the words** of all blocks in use. -/
theorem next_allocPagesAux {r : Option ℕ} (ho : s.Owned L live) (hz : s.ZonesFit)
    (h : BuddyState.allocPagesAux n s k = some (r, s')) (hw : InUse live w) :
    s'.links.next w = s.links.next w := by
  induction n generalizing k r s' with
  | zero => simp [BuddyState.allocPagesAux] at h
  | succ n ih =>
    rw [BuddyState.allocPagesAux] at h
    split_ifs at h with hmax hcount htop
    · obtain ⟨⟨q, hd⟩, -, hr⟩ := Option.map_eq_some_iff.mp h
      obtain ⟨-, rfl⟩ := Prod.mk.inj hr
      rfl
    · obtain ⟨-, rfl⟩ := Prod.mk.inj (Option.some.inj h)
      rfl
    · cases hrec : BuddyState.allocPagesAux n s (k + 1) with
      | none => simp [hrec] at h
      | some res =>
        obtain ⟨r₁, s₁⟩ := res
        cases r₁ with
        | none =>
          simp only [hrec, Option.some.injEq, Prod.mk.injEq] at h
          obtain ⟨-, rfl⟩ := h
          exact ih hrec
        | some p =>
          simp only [hrec, Option.some.injEq, Prod.mk.injEq] at h
          obtain ⟨-, rfl⟩ := h
          obtain ⟨hv, L₁, ho₁, hflag⟩ := ho.allocPagesAux hz hrec
          rw [ho₁.freePagesNolock_upper (hz.congr hv) fun hf => hflag p rfl hf, ← ih hrec]
          refine (listPushFront_next _ _ _ _).trans (if_neg (ho₁.ne_of_inUse hw ?_))
          rw [Dyadic.block_succ]
          exact Or.inr (Dyadic.self_mem_block _ _)

/-- `alloc_pages`. -/
theorem next_allocPages {r : Option ℕ} {flags : BitVec 32} (ho : s.Owned L live)
    (hz : s.ZonesFit) (h : s.allocPages k flags = some (r, s')) (hw : InUse live w) :
    s'.links.next w = s.links.next w := by
  rw [BuddyState.allocPages] at h
  split at h
  · obtain ⟨-, rfl⟩ := Prod.mk.inj (Option.some.inj h)
    rfl
  · obtain ⟨⟨r₁, s₁⟩, halloc, hr⟩ := Option.map_eq_some_iff.mp h
    rw [← ho.next_allocPagesAux hz halloc hw]
    split at hr
    · obtain ⟨-, rfl⟩ := Prod.mk.inj hr
      rfl
    · obtain ⟨-, rfl⟩ := Prod.mk.inj hr
      rfl

end Owned

end BuddyState

/-! ### The pool of `struct slab`s -/

/-- The pool has no block yet, or it has cut up one; `slabs` are its chunks in use. -/
structure PoolOk (pool : MempoolState) (slabs : List ℕ) (blocks : List (ℕ × ℕ)) : Prop where
  sizeOk : pool.SizeOk
  order : pool.order ≤ maxOrder
  state : (pool.count = 0 ∧ slabs = [] ∧ blocks = []) ∨
    ∃ page xs, pool.Filled slabs page xs ∧ blocks = [(page, pool.order)]

theorem PoolOk.popChunk {pool pool' : MempoolState} {slabs xs : List ℕ} {page : ℕ}
    {chunk : Option ℕ} (h : pool.Filled slabs page xs) (hpop : pool.popChunk = some (chunk, pool')) :
    ∃ x, chunk = some x ∧ x ∉ slabs ∧ PoolOk pool' (x :: slabs) [(page, pool.order)] := by
  cases xs with
  | nil => simp [h.popChunk_nil] at hpop
  | cons x xs =>
    obtain ⟨pool₁, hret, hfilled⟩ := h.popChunk
    rw [hret] at hpop
    obtain ⟨rfl, rfl⟩ := Prod.mk.inj (Option.some.inj hpop)
    have hnd := h.nodup
    have horder : pool₁.order = pool.order := by
      rw [MempoolState.popChunk] at hret
      obtain ⟨a, -, ha⟩ := Option.map_eq_some_iff.mp hret
      rw [← (Prod.mk.inj ha).2]
    refine ⟨x, rfl, fun hx => ?_, hfilled.sizeOk, hfilled.order, .inr ⟨page, xs, hfilled, ?_⟩⟩
    · exact (List.nodup_append.mp hnd).2.2 x (.head _) x hx rfl
    · rw [horder]

namespace Mm

open BuddyState

variable {m m' : Mm} {L : ℕ → List ℕ} {live pool : List (ℕ × ℕ)} {slabs : List ℕ} {c w x : ℕ}
  {page : Option ℕ}

/-- Two memories differ in their words and in nothing else that the slab allocator sees. -/
def SameSlabs (m m' : Mm) : Prop := ∃ f, m'.slabs = { m.slabs with pageSlab := f }

/-! #### What each call does, when it returns -/

@[simp] theorem pool_assignMempool (m : Mm) (page : Option ℕ) :
    (m.assignMempool page).pool = m.pool := by
  cases page <;> rfl

theorem mempoolAlloc_cases {r : Option ℕ} (h : m.mempoolAlloc = some (r, m')) :
    (m.pool.count > 0 ∧ ∃ pool', m.pool.popChunk = some (r, pool') ∧ m' = { m with pool := pool' }) ∨
      m.pool.count = 0 ∧ ∃ page b pool', m.buddy.allocPages m.pool.order buddyZero = some (page, b) ∧
        m.pool.mempoolAllocNolock page = some (r, pool') ∧
        m' = { (m.setBuddy b).assignMempool page with pool := pool' } := by
  rw [mempoolAlloc] at h
  split at h
  · next hcount =>
    obtain ⟨⟨r, pool'⟩, hpop, hm⟩ := Option.map_eq_some_iff.mp h
    obtain ⟨rfl, rfl⟩ := Prod.mk.inj hm
    rw [MempoolState.mempoolAllocNolock_of_pos hcount] at hpop
    exact .inl ⟨hcount, pool', hpop, rfl⟩
  · next hcount =>
    obtain ⟨⟨page, m₁⟩, hpages, hrest⟩ := Option.bind_eq_some_iff.mp h
    obtain ⟨⟨r, pool'⟩, hpop, hm⟩ := Option.map_eq_some_iff.mp hrest
    obtain ⟨⟨page, b⟩, hb, hp⟩ := Option.map_eq_some_iff.mp hpages
    obtain ⟨rfl, rfl⟩ := Prod.mk.inj hm
    obtain ⟨rfl, rfl⟩ := Prod.mk.inj hp
    rw [pool_assignMempool] at hpop
    exact .inr ⟨by omega, page, b, pool', hb, hpop, rfl⟩

theorem mempoolZalloc_iff : m.mempoolZalloc = some (x, m') ↔ m.mempoolAlloc = some (some x, m') := by
  rw [mempoolZalloc]
  constructor
  · intro h
    obtain ⟨⟨chunk, m₁⟩, halloc, h⟩ := Option.bind_eq_some_iff.mp h
    obtain ⟨y, hy, h⟩ := Option.bind_eq_some_iff.mp h
    obtain ⟨rfl, rfl⟩ := Prod.mk.inj (Option.some.inj h)
    rw [halloc]
    exact congrArg (fun r => some (r, m₁)) hy
  · intro h
    rw [h]
    rfl

/-- **`mempool_zalloc`** returns a chunk that is not in use. The words of blocks in use other than those
of the pool stay as they are. -/
theorem mempoolZalloc_spec (ho : m.buddy.Owned L (pool ++ live)) (hz : m.buddy.ZonesFit)
    (hp : PoolOk m.pool slabs pool) (h : m.mempoolZalloc = some (x, m')) :
    m'.buddy.ZonesFit ∧ m.SameSlabs m' ∧
      (∀ w, InUse live w → m'.slabs.pageSlab w = m.slabs.pageSlab w) ∧ x ∉ slabs ∧
        ∃ L' pool', m'.buddy.Owned L' (pool' ++ live) ∧ PoolOk m'.pool (x :: slabs) pool' := by
  rcases mempoolAlloc_cases (mempoolZalloc_iff.mp h) with
    ⟨hcount, pool₁, hpop, rfl⟩ | ⟨hcount, page, b, pool₁, hb, hpop, rfl⟩
  · rcases hp.state with ⟨hzero, -⟩ | ⟨page, xs, hfilled, rfl⟩
    · omega
    · obtain ⟨y, hy, hfresh, hpool⟩ := PoolOk.popChunk hfilled hpop
      obtain rfl := Option.some.inj hy
      exact ⟨hz, ⟨_, rfl⟩, fun _ _ => rfl, hfresh, L, _, ho, hpool⟩
  · obtain ⟨rfl, rfl⟩ : slabs = [] ∧ pool = [] := by
      rcases hp.state with ⟨-, hslabs, hpool⟩ | ⟨page, xs, hfilled, -⟩
      · exact ⟨hslabs, hpool⟩
      · have hpos := hfilled.sizeOk.maxCount_pos
        rw [← hfilled.count] at hpos
        omega
    obtain ⟨hv, L', ho'⟩ := ho.allocPages hz hb
    have hzero : ¬ m.pool.count > 0 := by omega
    cases page with
    | none =>
      rw [show m.pool.mempoolAllocNolock none = some (none, m.pool) from if_neg hzero] at hpop
      simp at hpop
    | some page =>
      rw [show m.pool.mempoolAllocNolock (some page) = (m.pool.refill page).popChunk from
        if_neg hzero] at hpop
      obtain ⟨hk, hzb⟩ := ho'.live_block (b := (page, m.pool.order)) (.head _)
      obtain ⟨y, hy, hfresh, hpool⟩ :=
        PoolOk.popChunk (MempoolState.filled_refill hp.sizeOk hp.order hzb.aligned) hpop
      obtain rfl := Option.some.inj hy
      -- the pool writes into its own block only
      have hwrite : ∀ w, w ∉ Dyadic.block page m.pool.order →
          (m.setBuddy b).slabs.assignPages page m.slabMempool (1 <<< m.pool.order) w =
            b.links.next w := by
        intro w hw
        refine (SlabState.assignPages_apply ..).trans (if_neg ?_)
        rwa [Nat.one_shiftLeft]
      refine ⟨hz.congr hv, ⟨_, rfl⟩, fun w hw => ?_, hfresh, L', _, ?_, hpool⟩
      · have hne : w ∉ Dyadic.block page m.pool.order := fun hin =>
          Owned.ne_of_inUse ho' hw hin rfl
        refine (hwrite w hne).trans ?_
        rw [m.union]
        exact ho.next_allocPages hz hb hw
      · exact ho'.setNext fun w hw => hwrite w fun hin => hw ⟨_, .head _, hin⟩

theorem supply_cases (h : m.supply c = some (page, x, m')) :
    ∃ b, m.buddy.allocPages (m.slabs.caches c).order 0 = some (page, b) ∧
      (m.setBuddy b).mempoolZalloc = some (x, m') := by
  obtain ⟨⟨page, m₁⟩, hpages, hrest⟩ := Option.bind_eq_some_iff.mp h
  obtain ⟨⟨y, m₂⟩, hslab, hret⟩ := Option.bind_eq_some_iff.mp hrest
  obtain ⟨⟨page, b⟩, hb, hm⟩ := Option.map_eq_some_iff.mp hpages
  obtain ⟨rfl, rfl⟩ := Prod.mk.inj hm
  obtain ⟨rfl, hslabm⟩ := Prod.mk.inj (Option.some.inj hret)
  obtain ⟨rfl, rfl⟩ := Prod.mk.inj hslabm
  exact ⟨b, hb, hslab⟩

theorem sameSlabs_supply (h : m.supply c = some (page, x, m')) : m.SameSlabs m' := by
  obtain ⟨b, -, hslab⟩ := supply_cases h
  rcases mempoolAlloc_cases (mempoolZalloc_iff.mp hslab) with
    ⟨-, pool', -, rfl⟩ | ⟨-, block, b', pool', -, -, rfl⟩
  · exact ⟨_, rfl⟩
  · cases block with
    | none => exact ⟨_, rfl⟩
    | some block => exact ⟨_, rfl⟩

/-- **The block and the `struct slab` for a new slab** are none of those in use. -/
theorem supply_spec {p : ℕ} (ho : m.buddy.Owned L (pool ++ live)) (hz : m.buddy.ZonesFit)
    (hp : PoolOk m.pool slabs pool) (h : m.supply c = some (some p, x, m')) :
    m'.buddy.ZonesFit ∧ m.SameSlabs m' ∧
      (∀ w, InUse live w → m'.slabs.pageSlab w = m.slabs.pageSlab w) ∧ x ∉ slabs ∧
        ∃ L' pool', m'.buddy.Owned L' (pool' ++ (p, (m.slabs.caches c).order) :: live) ∧
          PoolOk m'.pool (x :: slabs) pool' := by
  obtain ⟨b, hb, hslab⟩ := supply_cases h
  obtain ⟨hv, L₁, ho₁⟩ := ho.allocPages hz hb
  have ho₁ : b.Owned L₁ (pool ++ (p, (m.slabs.caches c).order) :: live) :=
    ho₁.perm (by simpa using List.perm_middle.symm)
  obtain ⟨hz', ⟨f, hf⟩, hwords, hfresh, L', pool', ho', hp'⟩ :=
    mempoolZalloc_spec (m := m.setBuddy b) ho₁ (hz.congr hv) hp hslab
  refine ⟨hz', ⟨f, hf⟩, fun w hw => ?_, hfresh, L', pool', ho', hp'⟩
  obtain ⟨d, hd, hwd⟩ := hw
  rw [hwords w ⟨d, .tail _ hd, hwd⟩, m.union]
  exact ho.next_allocPages hz hb ⟨d, List.mem_append_right _ hd, hwd⟩

theorem kmallocIdx_lt {size : ℕ} (h : size ≤ 8192) : kmallocIdx size < 12 := by
  have step : ∀ {p : Prop} [Decidable p] {a b : ℕ}, a < 12 → (¬ p → b < 12) →
      (if p then a else b) < 12 := by
    intro p _ a b ha hb
    split
    · exact ha
    · next hp => exact hb hp
  unfold kmallocIdx
  iterate 12 refine step (by decide) fun _ => ?_
  contradiction

end Mm

/-! ### One call -/

namespace MmSys

open BuddyState SlabState

variable {s s' : MmSys} {call : MmCall} {w : ℕ}

/-- The blocks of pages that belong to slabs. -/
def slabPages (s : MmSys) : List (ℕ × ℕ) :=
  s.slabs.map fun b => (b.page, (s.mem.slabs.caches b.cache).order)

/-- The call takes no page in use for a free one, and writes through no stale back pointer into a
listed page or a page of a slab. -/
def Clean (s : MmSys) : MmCall → Prop
  | .freePages page order => s.mem.buddy.CleanFree (maxOrder + 1) page order ∧
    s.mem.buddy.Spares {w | InUse s.slabPages w} (maxOrder + 1) page order
  | _ => True

/-- Every page of a slab names the slab. -/
def Kept (s : MmSys) : Prop :=
  ∀ b ∈ s.slabs, ∀ w ∈ s.mem.slabs.pages b, s.mem.slabs.pageSlab w = some b.slab

/-- `kfree` of a chunk in use finds the slab that the chunk was carved from. -/
def Reached (s : MmSys) : Prop :=
  ∀ y ∈ s.chunks, ∃ b ∈ s.slabs, y ∈ s.mem.slabs.chunks b ∧
    s.mem.slabs.pageSlab (s.mem.slabs.hhdmToPage y) = some b.slab

/-- **The invariant.** The blocks of the pool, of the slabs and of the callers are in use in the buddy
allocator. -/
structure Inv (s : MmSys) : Prop where
  zonesFit : s.mem.buddy.ZonesFit
  owned : ∃ L pool, s.mem.buddy.Owned L (pool ++ (s.slabPages ++ s.pages)) ∧
    PoolOk s.mem.pool (s.slabs.map SlabBlock.slab) pool
  linked : s.mem.slabs.Linked s.slabs
  chunks : ∃ F U, s.mem.slabs.SlabsOk s.slabs F U ∧ ∀ y, y ∈ s.chunks ↔ ∃ c, Used s.slabs U c y
  caches : ∀ c < 12, (s.mem.slabs.caches c).WellFormed

theorem Inv.kept (h : s.Inv) : s.Kept := by
  obtain ⟨F, U, hok, -⟩ := h.chunks
  intro b hb w hw
  exact (hok.slabOk b hb).pageSlab w hw

theorem Inv.reached (h : s.Inv) : s.Reached := by
  obtain ⟨F, U, hok, hchunks⟩ := h.chunks
  intro y hy
  obtain ⟨c, b, hb, -, hyb⟩ := (hchunks y).mp hy
  have hbok := hok.slabOk b hb
  have hmem : y ∈ F b.slab ++ U b.slab := List.mem_append_right _ hyb
  exact ⟨b, hb, hbok.perm.subset hmem, hbok.pageSlab _ (hbok.mem_pages hmem)⟩

/-- The words of the pages of slabs are all that the slabs need of the words. -/
theorem setPageSlab {st : SlabState} {blocks : List SlabBlock} {F U : ℕ → List ℕ} {f : ℕ → Option ℕ}
    (ho : st.SlabsOk blocks F U) (hf : ∀ b ∈ blocks, ∀ w ∈ st.pages b, f w = st.pageSlab w) :
    ({ st with pageSlab := f } : SlabState).SlabsOk blocks F U where
  slabOk b hb := (ho.slabOk b hb).congr ⟨rfl, fun _ => rfl, fun _ => rfl⟩ rfl (hf b hb) fun _ _ => rfl
  slab_inj := ho.slab_inj
  apart := ho.apart

theorem inUse_slabPages {b : SlabBlock} (hb : b ∈ s.slabs) (hw : w ∈ s.mem.slabs.pages b) :
    InUse s.slabPages w :=
  ⟨_, List.mem_map_of_mem hb, hw⟩

/-- **A call of the buddy allocator** that keeps the words of the pages of slabs. -/
theorem Inv.setBuddy {b : BuddyState} {L : ℕ → List ℕ} {pool pages : List (ℕ × ℕ)} (h : s.Inv)
    (hv : b.validBuddyPfn = s.mem.buddy.validBuddyPfn)
    (ho : b.Owned L (pool ++ (s.slabPages ++ pages)))
    (hp : PoolOk s.mem.pool (s.slabs.map SlabBlock.slab) pool)
    (hwords : ∀ w, InUse s.slabPages w → b.links.next w = s.mem.buddy.links.next w) :
    ({ s with mem := s.mem.setBuddy b, pages := pages } : MmSys).Inv where
  zonesFit := h.zonesFit.congr hv
  owned := ⟨L, pool, ho, hp⟩
  linked := h.linked.congr rfl rfl
  chunks := by
    obtain ⟨F, U, hok, hchunks⟩ := h.chunks
    refine ⟨F, U, setPageSlab hok fun a ha w hw => ?_, hchunks⟩
    rw [hwords w (inUse_slabPages ha hw), s.mem.union]
  caches c hc := (h.caches c hc)

theorem Inv.allocPages {order : ℕ} {flags : BitVec 32} (h : s.Inv)
    (hs : s.exec (.allocPages order flags) = some s') : s'.Inv := by
  obtain ⟨⟨r, m⟩, hr, rfl⟩ := Option.map_eq_some_iff.mp hs
  obtain ⟨⟨r', b⟩, hb, hm⟩ := Option.map_eq_some_iff.mp hr
  obtain ⟨rfl, rfl⟩ := Prod.mk.inj hm
  obtain ⟨L, pool, ho, hp⟩ := h.owned
  obtain ⟨hv, L', ho'⟩ := ho.allocPages h.zonesFit hb
  have hperm : (r'.toList.map (·, order) ++ (pool ++ (s.slabPages ++ s.pages))).Perm
      (pool ++ (s.slabPages ++ (r'.toList.map (·, order) ++ s.pages))) := by
    exact (List.perm_append_comm_assoc _ pool _).trans
      ((List.perm_append_comm_assoc _ s.slabPages _).append_left pool)
  refine h.setBuddy hv (ho'.perm hperm) hp fun w hw => ?_
  obtain ⟨d, hd, hwd⟩ := hw
  exact ho.next_allocPages h.zonesFit hb
    ⟨d, List.mem_append_right _ (List.mem_append_left _ hd), hwd⟩

theorem Inv.freePages {page order : ℕ} (h : s.Inv) (hok : s.Allowed (.freePages page order))
    (hc : s.Clean (.freePages page order)) (hs : s.exec (.freePages page order) = some s') :
    s'.Inv := by
  obtain rfl := Option.some.inj hs
  obtain ⟨L, pool, ho, hp⟩ := h.owned
  have hperm : (pool ++ (s.slabPages ++ s.pages)).Perm
      ((page, order) :: (pool ++ (s.slabPages ++ s.pages.erase (page, order)))) := by
    have hpages := ((List.perm_cons_erase hok).append_left s.slabPages).trans List.perm_middle
    exact (hpages.append_left pool).trans List.perm_middle
  have ho := ho.perm hperm
  obtain ⟨L', ho'⟩ := ho.freePagesAux h.zonesFit (by omega) hc.1
  refine h.setBuddy (validBuddyPfn_freePagesAux ..) ho' hp fun w hw => ?_
  obtain ⟨d, hd, hwd⟩ := hw
  exact ho.next_freePagesAux h.zonesFit hc.1 hc.2
    ⟨d, List.mem_append_right _ (List.mem_append_left _ hd), hwd⟩ ⟨d, hd, hwd⟩

/-- **A call of the slab allocator** that writes words of slabs only. -/
theorem Inv.setSlabs {m : Mm} {st : SlabState} {blocks : List SlabBlock} {chunks : Finset ℕ}
    {F U : ℕ → List ℕ} {L : ℕ → List ℕ} {pool : List (ℕ × ℕ)} (h : s.Inv)
    (hz : m.buddy.ZonesFit) (hsize : s.mem.SameSlabs m) (hlay : m.slabs.SameLayout st)
    (ho : m.buddy.Owned L (pool ++
      (blocks.map (fun b => (b.page, (s.mem.slabs.caches b.cache).order)) ++ s.pages)))
    (hwords : ∀ w, ¬ InUse (blocks.map fun b => (b.page, (s.mem.slabs.caches b.cache).order)) w →
      st.pageSlab w = m.slabs.pageSlab w)
    (hp : PoolOk m.pool (blocks.map SlabBlock.slab) pool) (hlink : st.Linked blocks)
    (hok : st.SlabsOk blocks F U) (hchunks : ∀ y, y ∈ chunks ↔ ∃ c, Used blocks U c y) :
    (⟨m.setSlabs st, s.pages, blocks, chunks⟩ : MmSys).Inv := by
  obtain ⟨f, hf⟩ := hsize
  have hlay : s.mem.slabs.SameLayout st := by
    rw [hf] at hlay
    exact ⟨hlay.hhdmOffset, hlay.size, hlay.order⟩
  have hpages : slabPages ⟨m.setSlabs st, s.pages, blocks, chunks⟩ =
      blocks.map fun b => (b.page, (s.mem.slabs.caches b.cache).order) :=
    List.map_congr_left fun b _ => Prod.ext rfl (hlay.order b.cache)
  refine ⟨hz.congr rfl, ⟨L, pool, ?_, hp⟩, hlink, ⟨F, U, hok, hchunks⟩, fun c hc => ?_⟩
  · rw [hpages]
    refine ho.setNext fun w hw => (hwords w fun hin => hw ?_).trans (by rw [m.union])
    obtain ⟨d, hd, hwd⟩ := hin
    exact ⟨d, List.mem_append_right _ (List.mem_append_left _ hd), hwd⟩
  · exact hlay.wellFormed (h.caches c hc)

theorem Inv.kfree {chunk : ℕ} (h : s.Inv) (hok : s.Allowed (.kfree chunk))
    (hs : s.exec (.kfree chunk) = some s') : s'.Inv := by
  obtain ⟨L, pool, ho, hp⟩ := h.owned
  obtain ⟨F, U, hslabs, hchunks⟩ := h.chunks
  obtain ⟨c, b, hb, rfl, hy⟩ := (hchunks chunk).mp hok
  have hbok := hslabs.slabOk b hb
  have hpage := hbok.pageSlab _ (hbok.mem_pages (List.mem_append_right _ hy))
  obtain ⟨m, hm, rfl⟩ := Option.map_eq_some_iff.mp hs
  rw [Mm.kfree, hpage, Option.bind_eq_bind, Option.bind_some, hbok.cache, Option.bind_eq_bind,
    Option.bind_some] at hm
  obtain ⟨st, hst, hm⟩ := Option.bind_eq_some_iff.mp hm
  obtain rfl := Option.some.inj hm
  obtain ⟨hwords, hlay, hlink, hslabs'⟩ := h.linked.kmemCacheFree hslabs hb hy hst
  refine h.setSlabs h.zonesFit ⟨_, rfl⟩ hlay ho (fun w _ => congrFun hwords w) hp hlink hslabs'
    fun z => ?_
  rw [Finset.mem_erase, hchunks z]
  constructor
  · rintro ⟨hne, d, hused⟩
    exact ⟨d, (hslabs.used_erase hb hy).mpr ⟨fun heq => hne heq.2, hused⟩⟩
  · rintro ⟨d, hused⟩
    obtain ⟨hne, a, ha, rfl, hza⟩ := (hslabs.used_erase hb hy).mp hused
    refine ⟨?_, a.cache, a, ha, rfl, hza⟩
    rintro rfl
    exact hne ⟨congrArg SlabBlock.cache (hslabs.used_inj ha hb hza hy), rfl⟩

theorem Inv.kmalloc {size : ℕ} (h : s.Inv) (hs : s.exec (.kmalloc size) = some s') : s'.Inv := by
  obtain ⟨⟨r, m⟩, hr, rfl⟩ := Option.map_eq_some_iff.mp hs
  obtain ⟨L, pool, ho, hp⟩ := h.owned
  obtain ⟨F, U, hslabs, hchunks⟩ := h.chunks
  rw [Mm.kmalloc] at hr
  simp only [Mm.slabsAfter]
  split at hr
  · next hsize =>
    obtain ⟨rfl, rfl⟩ := Prod.mk.inj (Option.some.inj hr)
    rw [if_pos hsize]
    exact h
  · next hsize =>
    rw [if_neg hsize]
    have hwf := h.caches _ (Mm.kmallocIdx_lt (not_lt.mp hsize))
    have hused : ∀ {blocks : List SlabBlock} {U' : ℕ → List ℕ} {y : ℕ},
        (∀ d z, Used blocks U' d z ↔ (d = kmallocIdx size ∧ z = y) ∨ Used s.slabs U d z) →
        ∀ z, z ∈ insert y s.chunks ↔ ∃ d, Used blocks U' d z := by
      intro blocks U' y hU z
      rw [Finset.mem_insert, hchunks z]
      constructor
      · rintro (rfl | ⟨d, hd⟩)
        · exact ⟨_, (hU _ _).mpr (.inl ⟨rfl, rfl⟩)⟩
        · exact ⟨d, (hU _ _).mpr (.inr hd)⟩
      · rintro ⟨d, hd⟩
        rcases (hU _ _).mp hd with ⟨-, rfl⟩ | hd
        · exact .inl rfl
        · exact .inr ⟨d, hd⟩
    rw [Mm.kmemCacheAlloc] at hr
    split at hr
    · next hneeds =>
      obtain ⟨⟨page, x, m₁⟩, hsup, hr⟩ := Option.bind_eq_some_iff.mp hr
      obtain ⟨⟨r, st⟩, hst, hm⟩ := Option.map_eq_some_iff.mp hr
      obtain ⟨rfl, rfl⟩ := Prod.mk.inj hm
      rw [if_pos hneeds, hsup]
      cases page with
      | none =>
        obtain ⟨f, hf⟩ := Mm.sameSlabs_supply hsup
        rw [kmemCacheAlloc_none (by rw [hf]; exact hneeds)] at hst
        simp at hst
      | some p =>
        obtain ⟨hz, ⟨f, hf⟩, hkeep, hfresh, L', pool', ho', hp'⟩ :=
          Mm.supply_spec ho h.zonesFit hp hsup
        have hlink₁ : m₁.slabs.Linked s.slabs := by
          rw [hf]
          exact h.linked.congr rfl rfl
        have hslabs₁ : m₁.slabs.SlabsOk s.slabs F U := by
          rw [hf] at hkeep ⊢
          refine setPageSlab hslabs fun a ha w hw => hkeep w ?_
          obtain ⟨d, hd, hwd⟩ := inUse_slabPages ha hw
          exact ⟨d, List.mem_append_left _ hd, hwd⟩
        have hother : ∀ a ∈ s.slabs, a.slab ≠ x := fun a ha hax =>
          hfresh (hax ▸ List.mem_map_of_mem ha)
        have hpair := (List.pairwise_append.mp ho'.live_disj).2.1
        have hdisj : ∀ a ∈ s.slabs,
            Disjoint (m₁.slabs.pages a) (m₁.slabs.pages ⟨kmallocIdx size, p, x⟩) := by
          rw [hf]
          intro a ha
          exact ((List.pairwise_cons.mp hpair).1 _
            (List.mem_append_left _ (List.mem_map_of_mem ha))).symm
        obtain ⟨hwords, hlay, hlink, y, F', U', rfl, hslabs', hU⟩ :=
          hlink₁.kmemCacheAlloc_new (b := ⟨kmallocIdx size, p, x⟩) hslabs₁
            (by rw [hf]; exact hneeds) (by rw [hf]; exact hwf)
            hother hdisj hst
        refine h.setSlabs hz ⟨f, hf⟩ hlay ho' (fun w hw => ?_) hp' hlink hslabs' (hused hU)
        rw [hwords, assignPages_apply, if_neg fun hin => hw ⟨_, .head _, ?_⟩]
        rw [hf, Nat.one_shiftLeft] at hin
        exact hin
    · next hneeds =>
      rw [if_neg hneeds]
      obtain ⟨⟨r, st⟩, hst, hm⟩ := Option.map_eq_some_iff.mp hr
      obtain ⟨rfl, rfl⟩ := Prod.mk.inj hm
      obtain ⟨hwords, hlay, hlink, y, F', U', rfl, hslabs', hU⟩ :=
        h.linked.kmemCacheAlloc hslabs hneeds hst
      exact h.setSlabs h.zonesFit ⟨_, rfl⟩ hlay ho (fun w _ => congrFun hwords w) hp hlink hslabs'
        (hused hU)

/-- **One call.** An allowed clean call that returns keeps the invariant. -/
theorem Inv.exec (h : s.Inv) (hok : s.Allowed call) (hc : s.Clean call)
    (hs : s.exec call = some s') : s'.Inv := by
  cases call with
  | allocPages order flags => exact h.allocPages hs
  | freePages page order => exact h.freePages hok hc hs
  | kmalloc size => exact h.kmalloc hs
  | kfree chunk => exact h.kfree hok hs

end MmSys

/-! ### Whole runs -/

theorem Mm.Booted.inv {m : Mm} {L : ℕ → List ℕ} (h : m.Booted L) : (MmSys.mk m [] [] ∅).Inv where
  zonesFit := h.zonesFit
  owned := by
    have hinit := MempoolSys.fresh_mempoolInit h.pool
    have horder : m.pool.order = 1 := by
      have hpool := h.pool
      rw [MempoolState.mempoolInit, if_neg (by decide), if_neg (by decide)] at hpool
      exact (congrArg MempoolState.order (Option.some.inj hpool)).symm
    refine ⟨L, [], h.consistent.owned, hinit.sizeOk, ?_, .inl ⟨hinit.count, rfl, rfl⟩⟩
    rw [horder]
    decide
  linked := by
    refine ⟨fun i x hx => ?_, by simp, by simp⟩
    rw [(h.noSlabs i).1] at hx
    cases hx
  chunks := ⟨fun _ => [], fun _ => [], ⟨by simp, by simp, by simp⟩, by simp [SlabState.Used]⟩
  caches c hc := wellFormed_of_mem_kmallocCaches (List.mem_of_getElem? (h.caches c hc))

/-- **The pages of slabs keep `page->slab`** in every run of clean calls, so that `kfree` of a chunk in
use finds the slab that the chunk was carved from. -/
theorem mm_run_kept {m : Mm} {L : ℕ → List ℕ} {calls : List MmCall} {s : MmSys} (hm : m.Booted L)
    (hrun : Run MmSys.exec (fun s call => s.Allowed call ∧ s.Clean call) ⟨m, [], [], ∅⟩ calls s) :
    s.Kept ∧ s.Reached := by
  have hinv : s.Inv :=
    hrun.invariant (fun s call s' h hok hs => h.exec hok.1 hok.2 hs) hm.inv
  exact ⟨hinv.kept, hinv.reached⟩

/-! ### A zone for one slab -/

/-- One zone of 18 pages, with a block of order 4 at frame 16 and one of order 1 at frame 32. -/
def mmStart : Mm where
  buddy :=
    { links := ⟨fun _ => none, fun _ => none⟩
      flags := fun p => if p = 16 ∨ p = 32 then 1 else 0
      buddyOrder := fun p => if p = 16 then 4 else if p = 32 then 1 else 0
      buddyLists := fun k => if k = 4 then ⟨some 16, 1⟩ else if k = 1 then ⟨some 32, 1⟩ else ⟨none, 0⟩
      buddyZones := [⟨16, 18⟩]
      memsets := [] }
  slabs :=
    { caches := fun c => ⟨(kmallocCaches.getD c (0, 0)).1, (kmallocCaches.getD c (0, 0)).2,
        fun _ => none, fun _ => 0⟩
      slab := fun _ => ⟨none, none, 0⟩
      slabList := ⟨fun _ => none, fun _ => none⟩
      pageSlab := fun _ => none
      chunkNext := fun _ => none
      hhdmOffset := 0x10000000000
      released := [] }
  pool := ⟨none, 0, sizeofSlab, 1, ⟨fun _ => none, fun _ => none⟩, fun _ => 0, 0x10000000000⟩
  slabMempool := 0x20000000000
  union := rfl

/-- What the free lists of `mmStart` hold. -/
def mmLists (k : ℕ) : List ℕ := if k = 4 then [16] else if k = 1 then [32] else []

theorem mem_mmLists {k p : ℕ} : p ∈ mmLists k ↔ (k = 4 ∧ p = 16) ∨ (k = 1 ∧ p = 32) := by
  rw [mmLists]
  split_ifs <;> simp_all

theorem validBuddyPfn_mmStart {p : ℕ} :
    mmStart.buddy.validBuddyPfn p = true ↔ 16 ≤ p ∧ p < 34 := by
  simp [BuddyState.validBuddyPfn, mmStart]

theorem consistent_mmStart : mmStart.buddy.Consistent mmLists where
  rep := by
    refine ⟨fun k => ?_, fun k => ?_, fun {i j x} hi hj => ?_⟩
    · simp only [mmLists, BuddyState.heads, mmStart]
      split_ifs <;> simp
    · rw [mmLists]
      split_ifs
      · exact List.isChain_singleton _
      · exact List.isChain_singleton _
      · exact List.isChain_nil
    · rcases mem_mmLists.mp hi with ⟨rfl, rfl⟩ | ⟨rfl, rfl⟩ <;>
        rcases mem_mmLists.mp hj with ⟨rfl, h⟩ | ⟨rfl, h⟩ <;> first | rfl | cases h
  count k _ := by
    simp only [mmLists, mmStart]
    split_ifs <;> rfl
  order_le h := by
    rcases mem_mmLists.mp h with ⟨rfl, -⟩ | ⟨rfl, -⟩ <;> decide
  free_iff p := by
    simp only [mem_mmLists, BuddyState.IsFree, mmStart]
    split_ifs with h
    · rcases h with rfl | rfl <;> simp [pageFlagFree]
    · push Not at h
      simp [h.1, h.2]
  order h := by
    rcases mem_mmLists.mp h with ⟨rfl, rfl⟩ | ⟨rfl, rfl⟩ <;> rfl
  block h := by
    rcases mem_mmLists.mp h with ⟨rfl, rfl⟩ | ⟨rfl, rfl⟩
    all_goals
      refine ⟨by decide, fun q hq => validBuddyPfn_mmStart.mpr ?_⟩
      have hq := Set.mem_Ico.mp hq
      omega
  disj h h' hne := by
    rcases mem_mmLists.mp h with ⟨rfl, rfl⟩ | ⟨rfl, rfl⟩ <;>
      rcases mem_mmLists.mp h' with ⟨rfl, rfl⟩ | ⟨rfl, rfl⟩
    all_goals first
      | exact absurd rfl hne
      | refine Set.disjoint_left.mpr fun q hq hq' => ?_
        have hq := Set.mem_Ico.mp hq
        have hq' := Set.mem_Ico.mp hq'
        omega

theorem booted_mmStart : mmStart.Booted mmLists where
  consistent := consistent_mmStart
  zonesFit := by
    refine ⟨fun p hp => ?_, 0, by decide, by decide⟩
    have := validBuddyPfn_mmStart.mp hp
    omega
  noSlabs _ := ⟨rfl, rfl⟩
  caches := by decide
  pool := rfl
  hhdmOffset := rfl

/-- Three blocks of order 2 are taken, and the second is given back and taken again by a slab of
4096-byte chunks. The block behind it on the free list still names it in `prev`, and is unlinked when
the third block is given back. -/
def mmCalls : List MmCall :=
  [.allocPages 2 0, .allocPages 2 0, .allocPages 2 0, .freePages 20 2, .kmalloc 4096, .freePages 24 2]

/-- **The defect.** The first page of the slab has lost `page->slab`. -/
theorem not_mm_run_kept :
    ¬ ∀ (m : Mm) (L : ℕ → List ℕ) (calls : List MmCall) (s : MmSys), m.Booted L →
      Run MmSys.exec MmSys.Allowed ⟨m, [], [], ∅⟩ calls s → s.Kept ∧ s.Reached := by
  intro h
  have hrun : (Run.check MmSys.exec MmSys.Allowed ⟨mmStart, [], [], ∅⟩ mmCalls).map
      (fun s => (s.slabs.map fun b => (b.page, (s.mem.slabs.caches b.cache).order),
        s.mem.slabs.pageSlab 20)) = some ([(20, 2)], none) := by
    decide +kernel
  obtain ⟨s, hs, hval⟩ := Option.map_eq_some_iff.mp hrun
  obtain ⟨hslabs, hword⟩ := Prod.mk.inj hval
  obtain ⟨b, hslabs, hb⟩ := List.map_eq_singleton_iff.mp hslabs
  obtain ⟨hpage, horder⟩ := Prod.mk.inj hb
  have hkept := (h mmStart mmLists mmCalls s booted_mmStart (Run.of_check hs)).1 b (by simp [hslabs])
    20 (by
      rw [SlabState.pages, hpage, horder]
      exact Dyadic.self_mem_block 20 2)
  rw [hword] at hkept
  cases hkept

/-- A slab takes the block at frame 16, and the block behind it is taken and given back. -/
theorem mm_run_kept_slab :
    ∃ s, Run MmSys.exec (fun s call => s.Allowed call ∧ s.Clean call) ⟨mmStart, [], [], ∅⟩
        [.kmalloc 4096, .allocPages 2 0, .freePages 20 2] s ∧
      s.slabs.map SlabBlock.page = [16] ∧ s.Kept ∧ s.Reached := by
  have hrun : ((MmSys.mk mmStart [] [] ∅).exec (.kmalloc 4096)).bind (fun s =>
      (s.exec (.allocPages 2 0)).map fun s =>
        (s.pages, s.slabs.map SlabBlock.page, s.mem.buddy.flags 16)) =
          some ([(20, 2)], [16], 0) := by
    decide +kernel
  obtain ⟨s₁, hs₁, hrun⟩ := Option.bind_eq_some_iff.mp hrun
  obtain ⟨s₂, hs₂, hval⟩ := Option.map_eq_some_iff.mp hrun
  simp only [Prod.mk.injEq] at hval
  obtain ⟨hpages, hslabs, hflags⟩ := hval
  have hmerge : ¬ s₂.mem.buddy.MergeTest (asUint (getBuddy 20 2)) 2 := fun h =>
    h.2.1 (by
      rw [show asUint (getBuddy 20 2) = 16 from by decide, hflags]
      decide)
  have hclean : s₂.Clean (.freePages 20 2) := ⟨fun h => absurd h hmerge, fun h => absurd h hmerge⟩
  have hallowed : s₂.Allowed (.freePages 20 2) := by
    rw [MmSys.Allowed, hpages]
    exact .head _
  have hr : Run MmSys.exec (fun s call => s.Allowed call ∧ s.Clean call) ⟨mmStart, [], [], ∅⟩
      [.kmalloc 4096, .allocPages 2 0, .freePages 20 2] _ :=
    .cons ⟨trivial, trivial⟩ hs₁ (.cons ⟨trivial, trivial⟩ hs₂
      (.cons ⟨hallowed, hclean⟩ rfl (.nil _)))
  exact ⟨_, hr, hslabs, mm_run_kept booted_mmStart hr⟩

end GoofyOs
