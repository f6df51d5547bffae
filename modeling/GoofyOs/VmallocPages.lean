import GoofyOs.KernelHalf
import GoofyOs.Vmalloc

/-!
# `vmalloc` and `vfree`

`vmalloc` takes a range from the arena, a page from the allocator for each page of the range, and
maps them in `kernel_virtual_pt`. `vfree` finds the pages again by walking the tables from the
current CR3, gives them back, and unmaps them.

The locks are modelled here: acquiring one that is held never returns, which is the outcome `none`,
and so does `hcf`. The pages obtained and given back are logged.

## Main definitions

* `VmState` — the range list, the tables, the locks and the logs
* `VmState.vmalloc`, `VmState.vfree` — the functions of the source
* `VmTables` — the current CR3 shares the kernel half of `kernel_virtual_pt`
* `PagesMapped`, `PagesUnmapped` — what the two loops do to the tables

## Main results

* `VmTables.of_kernelTopPgtInit` — how the tables start out
* `VmState.vmallocLoop_spec`, `VmState.vreleaseLoop_spec` — the two loops over the pages of a range
-/

namespace GoofyOs

open LinkedList Tiling MapperState VmallocState

/-- What `vmalloc` and `vfree` work on. -/
structure VmState (P : PageSource) where
  ranges : VmallocState
  mapper : MapperState P
  /-- the top-level table of `kernel_virtual_pt`, and its lock -/
  kernel : BitVec 64
  ptLock : Bool
  /-- `__readcr3()` -/
  cr3 : BitVec 64
  vmallocLock : Bool
  /-- the pages that `_vmalloc` got from `pgalloc` -/
  obtained : List (BitVec 64)
  /-- the pages that `_vrelease_pages` passed to `pgfree` -/
  freed : List (BitVec 64)

/-- `PAGE_COUNT`. -/
def pageCount (size : ℕ) : ℕ := (size + (pageSize - 1)) % 2 ^ 64 / pageSize

/-- The virtual address of page `i` of a range. -/
def pageOf (addr i : ℕ) : BitVec 64 := BitVec.ofNat 64 (addr + pageSize * i)

namespace VmState

variable {P : PageSource} (s : VmState P)

/-- `map_page(&kernel_virtual_pt, ..)`, with its lock. -/
def mapPage (phys virt flags : BitVec 64) : Option (VmState P) :=
  if s.ptLock then none
  else (s.mapper.mapPageNolock (s.mapper.va s.kernel) phys virt flags).map fun m =>
    { s with mapper := m }

/-- `unmap_page(&kernel_virtual_pt, ..)`. The early return keeps the lock. -/
def unmapPage (virt : BitVec 64) : Option (VmState P) :=
  if s.ptLock then none
  else
    let cr3 := s.mapper.va s.kernel
    some { s with
      mapper := s.mapper.unmapPageNolock cr3 virt
      ptLock := (s.mapper.unmapWalk virt 3 (slot cr3 (getIndex 3 virt))).isNone }

/-- The loop of `_vmalloc`, with `n` rounds to go. -/
def vmallocLoop (addr : ℕ) (flags : BitVec 64) : ℕ → ℕ → VmState P → Option (VmState P)
  | 0, _, s => some s
  | n + 1, i, s => do
    let (pg, m) ← s.mapper.pgalloc
    let phys := pg - m.hhdmOffset
    let s := { s with mapper := m, obtained := s.obtained ++ [phys] }
    let s ← s.mapPage phys (pageOf addr i) flags
    vmallocLoop addr flags n (i + 1) s

/-- `_vmalloc`, when `kzalloc` returns `new`. A null range is address 0. -/
def vmallocNolock (fuel size new : ℕ) (flags : BitVec 64) : Option (Option ℕ × VmState P) := do
  let alignedSize := pageCount size * pageSize
  let (ranges, addr) ← s.ranges.vmallocMapRange fuel alignedSize new
  let s ← vmallocLoop (addr.getD 0) flags (alignedSize / pageSize) 0 { s with ranges := ranges }
  pure (addr, s)

/-- `vmalloc`. -/
def vmalloc (fuel size new : ℕ) : Option (Option ℕ × VmState P) :=
  if s.vmallocLock then none
  else (vmallocNolock { s with vmallocLock := true } fuel size new (pgWrite ||| pgNx)).map fun r =>
    (r.1, { r.2 with vmallocLock := false })

/-- The loop of `_vrelease_pages`, with `n` rounds to go. -/
def vreleaseLoop (virt : ℕ) : ℕ → ℕ → VmState P → Option (VmState P)
  | 0, _, s => some s
  | n + 1, i, s => do
    let pfn := s.mapper.virtToPfn s.cr3 (pageOf virt i)
    let phys := BitVec.ofInt 64 pfn <<< 12
    let s := { s with
      mapper := s.mapper.pgfree (phys + s.mapper.hhdmOffset)
      freed := s.freed ++ [phys] }
    let s ← s.unmapPage (pageOf virt i)
    vreleaseLoop virt n (i + 1) s

/-- The body of the loop of `_vfree`, which leaves the loop at the range. -/
def vfreeBody (range : ℕ) (s : VmState P) (curr : ℕ) : VmState P × Option (Option (VmState P)) :=
  let c := s.ranges.node curr
  if c.addr = range then
    let s := { s with ranges :=
      s.ranges.setNode curr { c with flags := c.flags &&& ~~~vmInuse } }
    (s, some (vreleaseLoop c.addr (c.size / pageSize) 0 s))
  else (s, none)

/-- `_vfree`. -/
def vfreeNolock (fuel range : ℕ) : Option (VmState P) :=
  match forEach (fun s => s.ranges.next) (vfreeBody range) fuel s s.ranges.root with
  | none => none
  | some (s, none) => some s
  | some (_, some r) => r

/-- `vfree`. -/
def vfree (fuel range : ℕ) : Option (VmState P) :=
  if s.vmallocLock then none
  else (vfreeNolock { s with vmallocLock := true } fuel range).map fun s =>
    { s with vmallocLock := false }

end VmState

/-- The next `n` calls of the page allocator succeed. -/
def PageSource.supplies (P : PageSource) : ℕ → P.State → Bool
  | 0, _ => true
  | n + 1, pages => (P.alloc pages).any fun r => supplies P n r.2

/-! ### Addresses of the arena -/

/-- The index of `VMALLOC_START` into a top-level table. -/
def vmallocTop : ℕ := 416

theorem vmallocTop_le {a : ℕ} (h : vmallocStart ≤ a) (h' : a < vmallocEnd) :
    vmallocTop ≤ (getIndex 3 (BitVec.ofNat 64 a)).toNat := by
  rw [toNat_getIndex, BitVec.toNat_ofNat, vmallocTop]
  rw [vmallocStart] at h
  rw [vmallocEnd] at h'
  omega

/-- Addresses of the arena with the same page number are on the same page. -/
theorem pageNumber_arena {a b : ℕ} (ha : vmallocStart ≤ a) (ha' : a < vmallocEnd)
    (hb : vmallocStart ≤ b) (hb' : b < vmallocEnd)
    (h : pageNumber (BitVec.ofNat 64 a) = pageNumber (BitVec.ofNat 64 b)) :
    a / pageSize = b / pageSize := by
  have h := congrArg BitVec.toNat h
  rw [pageNumber, pageNumber, BitVec.extractLsb'_toNat, BitVec.extractLsb'_toNat,
    BitVec.toNat_ofNat, BitVec.toNat_ofNat, Nat.shiftRight_eq_div_pow,
    Nat.shiftRight_eq_div_pow] at h
  rw [vmallocStart] at ha hb
  rw [vmallocEnd] at ha' hb'
  rw [pageSize]
  omega

/-- The first `n` pages from `addr` on are in the arena. -/
structure InArena (addr n : ℕ) : Prop where
  dvd : pageSize ∣ addr
  start : vmallocStart ≤ addr
  fits : addr + pageSize * n ≤ vmallocEnd

namespace InArena

variable {addr addr' n n' i j : ℕ}

theorem lt (h : InArena addr n) (hi : i < n) :
    vmallocStart ≤ addr + pageSize * i ∧ addr + pageSize * i < vmallocEnd := by
  have := h.start
  have := h.fits
  rw [pageSize] at *
  omega

theorem top_le (h : InArena addr n) (hi : i < n) :
    vmallocTop ≤ (getIndex 3 (pageOf addr i)).toNat :=
  vmallocTop_le (h.lt hi).1 (h.lt hi).2

/-- Pages of ranges are different when their first addresses are. -/
theorem eq_of_pageNumber (h : InArena addr n) (h' : InArena addr' n') (hi : i < n) (hj : j < n')
    (heq : pageNumber (pageOf addr i) = pageNumber (pageOf addr' j)) :
    addr + pageSize * i = addr' + pageSize * j := by
  have hdiv := pageNumber_arena (h.lt hi).1 (h.lt hi).2 (h'.lt hj).1 (h'.lt hj).2 heq
  obtain ⟨c, rfl⟩ := h.dvd
  obtain ⟨d, rfl⟩ := h'.dvd
  rw [pageSize] at *
  omega

theorem inj (h : InArena addr n) (hi : i < n) (hj : j < n)
    (heq : pageNumber (pageOf addr i) = pageNumber (pageOf addr j)) : i = j := by
  have := h.eq_of_pageNumber h hi hj heq
  rw [pageSize] at this
  omega

end InArena

/-! ### The tables -/

variable {P : PageSource} {m m' m'' : MapperState P} {kernel cr3 r v x p : BitVec 64}
  {T T' T'' : ℕ → Set (BitVec 64)} {addr i n : ℕ} {ps : List (BitVec 64)}

/-- The tables of `kernel_virtual_pt` and of the current CR3, from the top-level index of the arena
on: well formed, and the same in both. -/
structure VmTables (m : MapperState P) (kernel cr3 : BitVec 64) (T : ℕ → Set (BitVec 64)) :
    Prop where
  tables : Tables m vmallocTop T
  unshared : Unshared m vmallocTop T
  absentClear : AbsentClear m vmallocTop T
  kernel_mem : kernel ∈ T 3
  cr3_mem : cr3 ∈ T 3
  same : cr3 = kernel ∨ ∀ i : BitVec 64, vmallocTop ≤ i.toNat → i.toNat < 512 →
    m.entry kernel i &&& pgPresent ≠ 0 ∧ m.entry cr3 i = m.entry kernel i

namespace VmTables

/-- The current CR3 translates the arena as `kernel_virtual_pt` does. -/
theorem leafOf_cr3 (h : VmTables m kernel cr3 T) (hv : vmallocTop ≤ (getIndex 3 v).toNat) :
    m.leafOf cr3 v = m.leafOf kernel v := by
  rcases h.same with heq | hsame
  · rw [heq]
  · have hentry := (hsame _ hv (getIndex_lt 3 v)).2
    rw [leafOf, leafOf, leafEntry_succ m v cr3 2, leafEntry_succ m v kernel 2, hentry]

/-- Writing a page's entry. -/
theorem pageWritten (h : VmTables m kernel cr3 T)
    (hw : PageWritten vmallocTop m T m' T' kernel v x) : VmTables m' kernel cr3 T' where
  tables := hw.tables
  unshared := hw.unshared h.unshared
  absentClear := hw.absentClear h.absentClear
  kernel_mem := hw.sub h.kernel_mem
  cr3_mem := hw.sub h.cr3_mem
  same := h.same.imp id fun hsame i hi hi' => by
    obtain ⟨hp, heq⟩ := hsame i hi hi'
    rw [hw.keep h.kernel_mem hi' hp, hw.keep h.cr3_mem hi' (by rwa [heq])]
    exact ⟨hp, heq⟩

/-- The page allocator may change, as long as the tables stay in use. -/
theorem setPages (h : VmTables m kernel cr3 T) (pages : P.State)
    (hused : ∀ {k t}, t ∈ T k → t ∈ P.used pages) :
    VmTables { m with pages := pages } kernel cr3 T where
  tables := ⟨h.tables.isPage, hused, h.tables.level, h.tables.child⟩
  unshared := ⟨h.unshared.ps, h.unshared.inj⟩
  absentClear := h.absentClear
  kernel_mem := h.kernel_mem
  cr3_mem := h.cr3_mem
  same := h.same

/-- Conditions on the tables from one index on hold from a larger one on. -/
theorem of_lower {lo : ℕ} (hlo : lo ≤ vmallocTop) (ht : Tables m lo T) (hu : Unshared m lo T)
    (ha : AbsentClear m lo T) (hk : kernel ∈ T 3) (hc : cr3 ∈ T 3)
    (hsame : cr3 = kernel ∨ ∀ i : BitVec 64, lo ≤ i.toNat → i.toNat < 512 →
      m.entry kernel i &&& pgPresent ≠ 0 ∧ m.entry cr3 i = m.entry kernel i) :
    VmTables m kernel cr3 T := by
  have hin : ∀ {k : ℕ} {i : BitVec 64}, InRange vmallocTop k i → InRange lo k i :=
    fun h => ⟨h.1, fun hk => hlo.trans (h.2 hk)⟩
  exact ⟨⟨ht.isPage, ht.used, ht.level, fun htk hk hi => ht.child htk hk (hin hi)⟩,
    ⟨fun htk hk hi => hu.ps htk hk (hin hi),
      fun htk htk' hk hi hj => hu.inj htk htk' hk (hin hi) (hin hj)⟩,
    fun htk hk hi => ha htk hk (hin hi), hk, hc,
    hsame.imp_right fun h i hi => h i (hlo.trans hi)⟩

/-- **The initial tables.** `kernel_top_pgt_init` makes the table of `kernel_virtual_pt` share the
kernel half of the boot table, which stays the current one. -/
theorem of_kernelTopPgtInit {b pg : BitVec 64} (hb : b ∈ T 3) (ht : Tables m 256 T)
    (hu : Unshared m 256 T) (ha : AbsentClear m 256 T)
    (hzero : ∀ i : BitVec 64, 256 ≤ i.toNat → i.toNat < 512 →
      m.entry b i = 0 ∨ m.entry b i &&& pgPresent ≠ 0)
    (hinit : m.kernelTopPgtInit b = some (pg, m')) :
    ∃ T', VmTables m' (pg - m'.hhdmOffset) b T' := by
  obtain ⟨T', hinv, hu', ha'⟩ := KernelSys.inv_init hb ht hzero hinit
  refine ⟨T', of_lower (by decide) hinv.tables (hu' hu) (ha' ha) (hinv.mem _ hinv.kernel)
    (hinv.mem b (by simp)) (Or.inr fun i hi hi' => ⟨hinv.present i hi hi', ?_⟩)⟩
  exact hinv.same b (by simp) i hi hi'

theorem virtToPfn (h : VmTables m kernel cr3 T) (hv : vmallocTop ≤ (getIndex 3 v).toNat) :
    m.virtToPfn cr3 v = (((m.leafOf kernel v &&& addrMask) >>> 12).setWidth 32).toInt := by
  rw [MapperState.virtToPfn, h.unshared.virtToPfnWalk h.absentClear h.tables h.cr3_mem le_rfl hv,
    ← h.leafOf_cr3 hv]
  rfl

/-- `is_mapped` says the same of both tables. -/
theorem isMapped (h : VmTables m kernel cr3 T) (hv : vmallocTop ≤ (getIndex 3 v).toNat) :
    m.isMappedNolock (m.va kernel) v = decide (m.leafOf kernel v &&& pgPresent ≠ 0) ∧
      m.isMappedNolock (m.va cr3) v = decide (m.leafOf kernel v &&& pgPresent ≠ 0) := by
  constructor
  · exact h.unshared.isMappedWalk h.absentClear h.tables h.kernel_mem le_rfl hv
  · rw [← h.leafOf_cr3 hv]
    exact h.unshared.isMappedWalk h.absentClear h.tables h.cr3_mem le_rfl hv

end VmTables

/-! ### A mapped page -/

/-- The entry of `v` is present and points to the page `p`. -/
def MapperState.MapsTo (m : MapperState P) (r v p : BitVec 64) : Prop :=
  m.leafOf r v &&& pgPresent ≠ 0 ∧ m.leafOf r v &&& addrMask = p

theorem MapperState.MapsTo.congr (h : m.MapsTo r v p) (hleaf : m'.leafOf r v = m.leafOf r v) :
    m'.MapsTo r v p := by
  rw [MapsTo, hleaf]
  exact h

theorem MapperState.MapsTo.unmapWalk (h : m.MapsTo r v p) :
    ∃ a, m.unmapWalk v 3 (slot (m.va r) (getIndex 3 v)) = some a := by
  cases hwalk : m.unmapWalk v 3 (slot (m.va r) (getIndex 3 v)) with
  | some a => exact ⟨a, rfl⟩
  | none =>
    refine absurd ?_ h.1
    rw [leafOf, leafEntry, hwalk]
    exact BitVec.zero_and

/-- What `_vrelease_pages` makes of the frame number of a page below `2 ^ 43`. -/
theorem ofInt_frame (hp : IsPage p) (hlt : p.toNat < 2 ^ 43) :
    BitVec.ofInt 64 (((p >>> 12).setWidth 32).toInt) <<< 12 = p := by
  have hdvd := hp.toNat.1
  rw [toInt_frame hlt, BitVec.ofInt_natCast]
  apply BitVec.eq_of_toNat_eq
  rw [BitVec.toNat_shiftLeft, BitVec.toNat_ofNat, Nat.shiftLeft_eq]
  omega

/-- `virt_to_pfn` finds the page that is mapped. -/
theorem VmTables.phys (h : VmTables m kernel cr3 T) (hv : vmallocTop ≤ (getIndex 3 v).toNat)
    (hmap : m.MapsTo kernel v p) (hlt : p.toNat < 2 ^ 43) :
    BitVec.ofInt 64 (m.virtToPfn cr3 v) <<< 12 = p := by
  have hp : IsPage p := hmap.2 ▸ isPage_and_addrMask _
  rw [h.virtToPfn hv, hmap.2, ofInt_frame hp hlt]

/-! ### The loop of `_vmalloc` -/

/-- What the loop of `_vmalloc` does to the tables and to the page allocator: from page `i` of the
range on, the pages are mapped to `ps`, which were not in use, and nothing else is mapped. -/
structure PagesMapped (m : MapperState P) (T : ℕ → Set (BitVec 64)) (kernel cr3 : BitVec 64)
    (addr i : ℕ) (ps : List (BitVec 64)) (m' : MapperState P) (T' : ℕ → Set (BitVec 64)) :
    Prop where
  tables : VmTables m' kernel cr3 T'
  hhdmOffset : m'.hhdmOffset = m.hhdmOffset
  used : P.used m.pages ⊆ P.used m'.pages
  new : ∀ {k t}, t ∈ T' k → t ∈ T k ∨ t ∉ P.used m.pages
  source : ∀ p ∈ ps, ∃ pages pages', P.alloc pages = some (p, pages')
  nodup : ps.Nodup
  fresh : ∀ p ∈ ps, p ∉ P.used m.pages
  inUse : ∀ p ∈ ps, p ∈ P.used m'.pages
  notTable : ∀ p ∈ ps, ∀ k, p ∉ T' k
  backed : ∀ j p, ps[j]? = some p → m'.MapsTo kernel (pageOf addr (i + j)) p
  other : ∀ v, vmallocTop ≤ (getIndex 3 v).toNat →
    (∀ j < ps.length, pageNumber v ≠ pageNumber (pageOf addr (i + j))) →
    m'.leafOf kernel v = m.leafOf kernel v

namespace PagesMapped

theorem nil (h : VmTables m kernel cr3 T) : PagesMapped m T kernel cr3 addr i [] m T where
  tables := h
  hhdmOffset := rfl
  used := subset_rfl
  new := Or.inl
  source := by simp
  nodup := List.nodup_nil
  fresh := by simp
  inUse := by simp
  notTable := by simp
  backed := by simp
  other _ _ _ := rfl

/-- A page is mapped, and then the ones after it. -/
theorem cons (harena : InArena addr n) (hn : i + ps.length < n)
    (h : PagesMapped m T kernel cr3 addr i [p] m' T')
    (hrest : PagesMapped m' T' kernel cr3 addr (i + 1) ps m'' T'') :
    PagesMapped m T kernel cr3 addr i (p :: ps) m'' T'' where
  tables := hrest.tables
  hhdmOffset := hrest.hhdmOffset.trans h.hhdmOffset
  used := h.used.trans hrest.used
  new ht := by
    rcases hrest.new ht with ht | ht
    · exact h.new ht
    · exact Or.inr fun hu => ht (h.used hu)
  source := List.forall_mem_cons.mpr ⟨h.source p List.mem_cons_self, hrest.source⟩
  nodup := by
    refine List.nodup_cons.mpr ⟨fun hp => ?_, hrest.nodup⟩
    exact hrest.fresh p hp (h.inUse p List.mem_cons_self)
  fresh := by
    refine List.forall_mem_cons.mpr ⟨h.fresh p List.mem_cons_self, fun q hq hu => ?_⟩
    exact hrest.fresh q hq (h.used hu)
  inUse := List.forall_mem_cons.mpr ⟨hrest.used (h.inUse p List.mem_cons_self), hrest.inUse⟩
  notTable := by
    refine List.forall_mem_cons.mpr ⟨fun k hk => ?_, hrest.notTable⟩
    rcases hrest.new hk with hk | hk
    · exact h.notTable p List.mem_cons_self k hk
    · exact hk (h.inUse p List.mem_cons_self)
  backed j q hq := by
    cases j with
    | zero =>
      refine (h.backed 0 q hq).congr (hrest.other _ (harena.top_le (by omega)) fun j hj heq => ?_)
      have := harena.inj (by omega) (by omega) heq
      omega
    | succ j =>
      have hback := hrest.backed j q hq
      rwa [Nat.add_right_comm] at hback
  other v hv hne := by
    have hafter : ∀ j < ps.length, pageNumber v ≠ pageNumber (pageOf addr (i + 1 + j)) := by
      intro j hj
      rw [Nat.add_right_comm]
      exact hne (j + 1) (Nat.succ_lt_succ hj)
    have hfirst : ∀ j < [p].length, pageNumber v ≠ pageNumber (pageOf addr (i + j)) := by
      intro j hj
      obtain rfl : j = 0 := by simpa using hj
      exact hne 0 (Nat.succ_pos _)
    exact (hrest.other v hv hafter).trans (h.other v hv hfirst)

end PagesMapped

/-- `map_page` on a page that was just allocated. -/
theorem VmTables.mapPage {pages : P.State} {flags : BitVec 64} (h : VmTables m kernel cr3 T)
    (hv : vmallocTop ≤ (getIndex 3 (pageOf addr i)).toNat) (hflags : flags &&& ~~~pgFlagmask = 0)
    (halloc : P.alloc m.pages = some (p, pages))
    (hmap : ({ m with pages := pages } : MapperState P).mapPageNolock (m.va kernel) p
      (pageOf addr i) flags = some m') :
    ∃ T', PagesMapped m T kernel cr3 addr i [p] m' T' := by
  have hsub : P.used m.pages ⊆ P.used pages := by
    rw [P.used_alloc halloc]
    exact Set.subset_insert _ _
  have hp : p ∈ P.used pages := by
    rw [P.used_alloc halloc]
    exact Set.mem_insert _ _
  have h' := h.setPages pages fun ht => hsub (h.tables.used ht)
  obtain ⟨T', hw⟩ := h'.tables.mapPageNolock h'.kernel_mem hv hmap
  have hnew : ∀ {k t}, t ∈ T' k → t ∈ T k ∨ t ∉ P.used pages := hw.new
  refine ⟨T', h'.pageWritten hw, hw.hhdmOffset, hsub.trans hw.used, fun ht => ?_,
    List.forall_mem_singleton.mpr ⟨_, _, halloc⟩, List.nodup_singleton p, ?_, ?_, ?_,
    fun j q hq => ?_, fun v' hv' hne => ?_⟩
  · exact (hnew ht).imp_right fun hu hu' => hu (hsub hu')
  · simpa using P.fresh halloc
  · simpa using hw.used hp
  · refine List.forall_mem_singleton.mpr fun k hk => ?_
    rcases hnew hk with hk | hk
    · exact P.fresh halloc (h.tables.used hk)
    · exact hk hp
  · obtain ⟨hj, rfl⟩ := List.getElem?_eq_some_iff.mp hq
    obtain rfl : j = 0 := by simpa using hj
    rw [MapsTo, Nat.add_zero, hw.self rfl]
    exact ⟨pageEntry_present p flags, pageEntry_and_addrMask (P.isPage halloc) hflags⟩
  · exact hw.other h'.unshared h'.kernel_mem hv' (hne 0 (by simp))

/-! ### The calls of the page allocator that succeed -/

theorem PageSource.alloc_of_supplies {pages : P.State} (h : P.supplies (n + 1) pages = true) :
    ∃ p pages', P.alloc pages = some (p, pages') ∧ P.supplies n pages' = true := by
  rw [supplies] at h
  obtain ⟨⟨p, pages'⟩, halloc, hrest⟩ := (Option.any_eq_true _ _).mp h
  exact ⟨p, pages', halloc, hrest⟩

theorem PageSource.supplies_of_succ {pages : P.State} (h : P.supplies (n + 1) pages = true) :
    P.supplies n pages = true := by
  induction n generalizing pages with
  | zero => rfl
  | succ n ih =>
    obtain ⟨p, pages', halloc, hrest⟩ := alloc_of_supplies h
    rw [supplies, halloc]
    exact ih hrest

/-- One round of the loop of `map_page` takes at most one page. -/
theorem MapperState.mapStep_supplies {a : BitVec 64} (h : P.supplies (n + 1) m.pages = true) :
    ∃ r, m.mapStep a = some r ∧ P.supplies n r.2.pages = true := by
  rw [mapStep]
  split
  · exact ⟨_, rfl, PageSource.supplies_of_succ h⟩
  · obtain ⟨p, pages', halloc, hrest⟩ := PageSource.alloc_of_supplies h
    rw [halloc]
    exact ⟨_, rfl, hrest⟩

theorem MapperState.mapWalk_supplies {k : ℕ} {a : BitVec 64}
    (h : P.supplies (n + k) m.pages = true) :
    ∃ r, m.mapWalk v k a = some r ∧ P.supplies n r.2.pages = true := by
  induction k generalizing m a with
  | zero => exact ⟨_, rfl, h⟩
  | succ k ih =>
    obtain ⟨⟨c, m₁⟩, hstep, hrest⟩ := mapStep_supplies (a := a) h
    obtain ⟨r, hwalk, hsupplies⟩ := ih (m := m₁) (a := slot (m₁.va c) (getIndex k v)) hrest
    refine ⟨r, ?_, hsupplies⟩
    rw [mapWalk_succ, hstep]
    exact hwalk

/-- `map_page` takes at most three pages. -/
theorem MapperState.mapPageNolock_supplies {flags c : BitVec 64} (phys : BitVec 64)
    (hflags : flags &&& ~~~pgFlagmask = 0) (h : P.supplies (n + 3) m.pages = true) :
    ∃ m', m.mapPageNolock c phys v flags = some m' ∧ P.supplies n m'.pages = true := by
  obtain ⟨r, hwalk, hsupplies⟩ :=
    mapWalk_supplies (m := m) (v := v) (a := slot c (getIndex 3 v)) h
  refine ⟨r.2.write r.1 (phys ||| flags ||| pgPresent), ?_, hsupplies⟩
  rw [mapPageNolock, if_neg (not_not.mpr hflags), hwalk]
  rfl

namespace VmState

variable {s s' : VmState P} {flags : BitVec 64}

/-- One round of the loop of `_vmalloc` takes at most four pages: one to map, and three for tables. -/
theorem vmallocLoop_succ {k : ℕ} (hlock : s.ptLock = false) (hflags : flags &&& ~~~pgFlagmask = 0)
    (hpages : P.supplies (k + 4) s.mapper.pages = true) :
    ∃ p pages m₁, P.alloc s.mapper.pages = some (p, pages) ∧
      ({ s.mapper with pages := pages } : MapperState P).mapPageNolock (s.mapper.va s.kernel) p
        (pageOf addr i) flags = some m₁ ∧
      P.supplies k m₁.pages = true ∧
      ∀ n, vmallocLoop addr flags (n + 1) i s =
        vmallocLoop addr flags n (i + 1) { s with mapper := m₁, obtained := s.obtained ++ [p] } := by
  obtain ⟨p, pages, halloc, hrest⟩ := PageSource.alloc_of_supplies (n := k + 3) hpages
  obtain ⟨m₁, hmap, hrest⟩ := mapPageNolock_supplies (v := pageOf addr i)
    (c := s.mapper.va s.kernel) (m := { s.mapper with pages := pages }) p hflags hrest
  refine ⟨p, pages, m₁, halloc, hmap, hrest, fun n => ?_⟩
  have hphys : s.mapper.va p - s.mapper.hhdmOffset = p := BitVec.add_sub_cancel _ _
  rw [vmallocLoop, pgalloc, halloc]
  simp only [Option.map_some, Option.bind_eq_bind, Option.bind_some, hphys]
  rw [VmState.mapPage, if_neg (by simp [hlock])]
  exact congrArg (fun o => (Option.map _ o).bind _) hmap

/-- **The loop of `_vmalloc`** returns if the page allocator has four pages for each page of the
range. -/
theorem vmallocLoop_spec (flags : BitVec 64) (h : VmTables s.mapper s.kernel s.cr3 T)
    (hlock : s.ptLock = false) (hflags : flags &&& ~~~pgFlagmask = 0) {total : ℕ}
    (harena : InArena addr total) (hn : i + n ≤ total)
    (hpages : P.supplies (4 * n) s.mapper.pages = true) :
    ∃ m' ps T', vmallocLoop addr flags n i s =
        some { s with mapper := m', obtained := s.obtained ++ ps } ∧ ps.length = n ∧
      PagesMapped s.mapper T s.kernel s.cr3 addr i ps m' T' := by
  induction n generalizing s T i with
  | zero => exact ⟨s.mapper, [], T, by rw [vmallocLoop, List.append_nil], rfl, .nil h⟩
  | succ n ih =>
    obtain ⟨c, pages, m₁, halloc, hmap, hrest, hround⟩ :=
      vmallocLoop_succ (i := i) hlock hflags hpages
    obtain ⟨T₁, hone⟩ := h.mapPage (harena.top_le (by omega)) hflags halloc hmap
    obtain ⟨m', ps, T', hloop, hlen, hmapped⟩ := ih
      (s := { s with mapper := m₁, obtained := s.obtained ++ [c] }) hone.tables hlock
      (i := i + 1) (by omega) hrest
    refine ⟨m', c :: ps, T', ?_, congrArg Nat.succ hlen, hone.cons harena (by omega) hmapped⟩
    rw [hround, hloop, List.append_assoc]
    rfl

end VmState

/-! ### The loop of `_vrelease_pages` -/

/-- The address of the level 0 entry of `v` in the address space `r`. -/
def MapperState.leafSlot (m : MapperState P) (r v : BitVec 64) : Option (BitVec 64) :=
  m.unmapWalk v 3 (slot (m.va r) (getIndex 3 v))

/-- What `_vrelease_pages` does to the tables and to the page allocator: from page `i` of the range
on, the pages `ps` are given back and unmapped, and only the level 0 entries of these pages are
written. -/
structure PagesUnmapped (m : MapperState P) (T : ℕ → Set (BitVec 64)) (kernel cr3 : BitVec 64)
    (addr i : ℕ) (ps : List (BitVec 64)) (m' : MapperState P) : Prop where
  tables : VmTables m' kernel cr3 T
  hhdmOffset : m'.hhdmOffset = m.hhdmOffset
  used : P.used m'.pages = P.used m.pages \ {p | p ∈ ps}
  unmapped : ∀ v, (∃ j < ps.length, pageNumber v = pageNumber (pageOf addr (i + j))) →
    m'.leafOf kernel v = 0
  other : ∀ v, vmallocTop ≤ (getIndex 3 v).toNat →
    (∀ j < ps.length, pageNumber v ≠ pageNumber (pageOf addr (i + j))) →
    m'.leafOf kernel v = m.leafOf kernel v
  leafSlot : ∀ v, vmallocTop ≤ (getIndex 3 v).toNat →
    m'.leafSlot kernel v = m.leafSlot kernel v
  mem : ∀ a, (∀ j < ps.length, m.leafSlot kernel (pageOf addr (i + j)) ≠ some a) →
    m'.mem a = m.mem a

namespace PagesUnmapped

theorem nil (h : VmTables m kernel cr3 T) : PagesUnmapped m T kernel cr3 addr i [] m where
  tables := h
  hhdmOffset := rfl
  used := by simp
  unmapped := by simp
  other _ _ _ := rfl
  leafSlot _ _ := rfl
  mem _ _ := rfl

/-- A page is unmapped, and then the ones after it. -/
theorem cons (harena : InArena addr n) (hn : i + ps.length < n)
    (h : PagesUnmapped m T kernel cr3 addr i [p] m')
    (hrest : PagesUnmapped m' T kernel cr3 addr (i + 1) ps m'') :
    PagesUnmapped m T kernel cr3 addr i (p :: ps) m'' where
  tables := hrest.tables
  hhdmOffset := hrest.hhdmOffset.trans h.hhdmOffset
  used := by
    rw [hrest.used, h.used, Set.sdiff_sdiff]
    congr 1
    ext q
    simp
  unmapped v hv := by
    obtain ⟨j, hj, heq⟩ := hv
    by_cases hlater : ∃ j < ps.length, pageNumber v = pageNumber (pageOf addr (i + 1 + j))
    · exact hrest.unmapped v hlater
    · have hj0 : j = 0 := by
        by_contra hne
        obtain ⟨j, rfl⟩ := Nat.exists_eq_succ_of_ne_zero hne
        refine hlater ⟨j, Nat.lt_of_succ_lt_succ hj, ?_⟩
        rw [Nat.add_right_comm]
        exact heq
      subst hj0
      have htop : vmallocTop ≤ (getIndex 3 v).toNat :=
        lo_le_congr heq.symm (harena.top_le (by omega))
      rw [hrest.other v htop fun j hj heq => hlater ⟨j, hj, heq⟩]
      exact h.unmapped v ⟨0, Nat.one_pos, heq⟩
  other v hv hne := by
    have hafter : ∀ j < ps.length, pageNumber v ≠ pageNumber (pageOf addr (i + 1 + j)) := by
      intro j hj
      rw [Nat.add_right_comm]
      exact hne (j + 1) (Nat.succ_lt_succ hj)
    have hfirst : ∀ j < [p].length, pageNumber v ≠ pageNumber (pageOf addr (i + j)) := by
      intro j hj
      obtain rfl : j = 0 := by simpa using hj
      exact hne 0 (Nat.succ_pos _)
    exact (hrest.other v hv hafter).trans (h.other v hv hfirst)
  leafSlot v hv := (hrest.leafSlot v hv).trans (h.leafSlot v hv)
  mem a ha := by
    have hafter : ∀ j < ps.length, m'.leafSlot kernel (pageOf addr (i + 1 + j)) ≠ some a := by
      intro j hj
      rw [h.leafSlot _ (harena.top_le (by omega)), Nat.add_right_comm]
      exact ha (j + 1) (Nat.succ_lt_succ hj)
    have hfirst : ∀ j < [p].length, m.leafSlot kernel (pageOf addr (i + j)) ≠ some a := by
      intro j hj
      obtain rfl : j = 0 := by simpa using hj
      exact ha 0 (Nat.succ_pos _)
    exact (hrest.mem a hafter).trans (h.mem a hfirst)

end PagesUnmapped

/-- `unmap_page` takes no other walk to another end. -/
theorem Tables.leafSlot_unmapPage {v' : BitVec 64} (ht : Tables m vmallocTop T) (hr : r ∈ T 3)
    (hv : vmallocTop ≤ (getIndex 3 v).toNat) (hv' : vmallocTop ≤ (getIndex 3 v').toNat) :
    (m.unmapPageNolock (m.va r) v).leafSlot r v' = m.leafSlot r v' := by
  rw [MapperState.unmapPageNolock]
  split
  · next a hfound =>
    obtain ⟨t₀, ht₀, rfl⟩ := ht.exists_slot hr le_rfl hv hfound
    exact ht.unmapWalk_write ht₀ (getIndex_lt 0 v) hr le_rfl hv'
  · rfl

theorem MapperState.mem_unmapPage {a : BitVec 64} (ha : m.leafSlot r v ≠ some a) :
    (m.unmapPageNolock (m.va r) v).mem a = m.mem a := by
  rw [leafSlot] at ha
  rw [unmapPageNolock]
  split
  · next b hfound =>
    refine Function.update_of_ne ?_ _ _
    rintro rfl
    exact ha hfound
  · rfl

theorem MapperState.pages_unmapPage (m : MapperState P) (c v : BitVec 64) :
    (m.unmapPageNolock c v).pages = m.pages := by
  rw [unmapPageNolock]
  split
  · rfl
  · rfl

/-- Giving a page back that is no table, and unmapping it. -/
theorem VmTables.unmapPage (h : VmTables m kernel cr3 T)
    (hv : vmallocTop ≤ (getIndex 3 (pageOf addr i)).toNat) (hp : ∀ k, p ∉ T k) :
    PagesUnmapped m T kernel cr3 addr i [p]
      ((m.pgfree (p + m.hhdmOffset)).unmapPageNolock (m.va kernel) (pageOf addr i)) := by
  have hfree : p + m.hhdmOffset - m.hhdmOffset = p := BitVec.add_sub_cancel _ _
  rw [pgfree, hfree]
  have hused := P.used_free m.pages p
  have h' := h.setPages (P.free m.pages p) fun {k t} ht => by
    rw [hused]
    refine ⟨h.tables.used ht, ?_⟩
    rintro rfl
    exact hp k ht
  have hw := h'.tables.unmapPageNolock h'.kernel_mem hv
  refine ⟨h'.pageWritten hw, hw.hhdmOffset, ?_, fun v hv => ?_, fun v hv hne => ?_,
    fun v hv' => h'.tables.leafSlot_unmapPage h'.kernel_mem hv hv',
    fun a ha => mem_unmapPage (m := { m with pages := P.free m.pages p }) (ha 0 (by simp))⟩
  · rw [pages_unmapPage, hused]
    congr 1
    ext q
    simp
  · obtain ⟨j, hj, heq⟩ := hv
    obtain rfl : j = 0 := by simpa using hj
    exact hw.self heq
  · exact hw.other h'.unshared h'.kernel_mem hv (hne 0 (by simp))

namespace VmState

variable {s s' : VmState P}

/-- **The loop of `_vrelease_pages`** gives back the pages that the range is mapped to. -/
theorem vreleaseLoop_spec (h : VmTables s.mapper s.kernel s.cr3 T) (hlock : s.ptLock = false)
    (harena : InArena addr n) (hn : i + ps.length ≤ n)
    (hback : ∀ j p, ps[j]? = some p → s.mapper.MapsTo s.kernel (pageOf addr (i + j)) p)
    (hlt : ∀ p ∈ ps, p.toNat < 2 ^ 43) (hnot : ∀ p ∈ ps, ∀ k, p ∉ T k) :
    ∃ m', vreleaseLoop addr ps.length i s =
        some { s with mapper := m', freed := s.freed ++ ps } ∧
      PagesUnmapped s.mapper T s.kernel s.cr3 addr i ps m' := by
  induction ps generalizing s i with
  | nil => exact ⟨s.mapper, by rw [List.append_nil]; rfl, .nil h⟩
  | cons p ps ih =>
    rw [List.length_cons] at hn
    have htop := harena.top_le (show i < n by omega)
    have hmap := hback 0 p rfl
    have hphys := h.phys htop hmap (hlt p List.mem_cons_self)
    let m₁ := (s.mapper.pgfree (p + s.mapper.hhdmOffset)).unmapPageNolock (s.mapper.va s.kernel)
      (pageOf addr i)
    have hone := h.unmapPage htop (hnot p List.mem_cons_self)
    have hback' : ∀ j q, ps[j]? = some q → m₁.MapsTo s.kernel (pageOf addr (i + 1 + j)) q := by
      intro j q hq
      have hj := (List.getElem?_eq_some_iff.mp hq).1
      rw [Nat.add_right_comm]
      refine (hback (j + 1) q hq).congr (hone.other _ (harena.top_le (by omega)) fun k hk heq => ?_)
      obtain rfl : k = 0 := by simpa using hk
      have := harena.inj (by omega) (by omega) heq
      omega
    obtain ⟨m', hloop, hunmapped⟩ := ih (s := { s with mapper := m₁, freed := s.freed ++ [p] })
      (i := i + 1) hone.tables hlock (by omega) hback'
      (fun q hq => hlt q (List.mem_cons_of_mem _ hq))
      fun q hq => hnot q (List.mem_cons_of_mem _ hq)
    refine ⟨m', ?_, hone.cons harena (by omega) hunmapped⟩
    obtain ⟨a, ha⟩ := hmap.unmapWalk
    have hstep : (VmState.mk s.ranges (s.mapper.pgfree (p + s.mapper.hhdmOffset)) s.kernel
        s.ptLock s.cr3 s.vmallocLock s.obtained (s.freed ++ [p])).unmapPage (pageOf addr i) =
        some { s with mapper := m₁, freed := s.freed ++ [p] } := by
      rw [VmState.unmapPage, if_neg (by simp [hlock])]
      have hwalk : (s.mapper.pgfree (p + s.mapper.hhdmOffset)).unmapWalk (pageOf addr i) 3
          (slot ((s.mapper.pgfree (p + s.mapper.hhdmOffset)).va s.kernel)
            (getIndex 3 (pageOf addr i))) = some a := ha
      simp only [hwalk, Option.isNone_some, hlock]
      rfl
    rw [List.length_cons, vreleaseLoop]
    simp only [hphys]
    rw [hstep, Option.bind_eq_bind, Option.bind_some, hloop, List.append_assoc]
    rfl

end VmState

end GoofyOs
