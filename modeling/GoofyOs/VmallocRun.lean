import GoofyOs.VmallocPages
import Mathlib.Data.List.Flatten
import Mathlib.Data.List.Nodup

/-!
# Runs of `vmalloc` and `vfree`

The results of `vmalloc` that were not passed to `vfree` yet are recorded with the pages that were
obtained for them. Over every run, each page of such a range translates to its own page, which no
other range has. `vfree` reads the pages off the tables, and these are the ones of the record.

## Main definitions

* `VmSys`, `VmCall`, `VmSys.exec` — the state, the calls and one call
* `VmSys.Inv` — the range list, the tables and the page allocator agree
* `VmSys.Backs`, `VmSys.Allocated`, `VmSys.Freed` — what a live range looks like, and what the two
  calls do

## Main results

* `VmSys.Inv.vmalloc`, `VmSys.Inv.vfree` — each call returns and keeps the invariant
* `vmalloc_run_conserves` — whole runs after `vmalloc_init`
-/

namespace GoofyOs

open LinkedList Tiling MapperState VmallocState

/-- A range that `vmalloc` returned, with the pages that were obtained for it. -/
structure LiveRange where
  addr : ℕ
  /-- the argument of `vmalloc` -/
  size : ℕ
  pages : List (BitVec 64)

/-- The range of the arena. -/
def LiveRange.range (l : LiveRange) : Range := ⟨l.addr, pageCount l.size * pageSize, true⟩

/-- The state, and the results of `vmalloc` that are live. -/
structure VmSys (P : PageSource) where
  st : VmState P
  live : List LiveRange

/-- A call. `new` is what `kzalloc` returns if a range has to be split. -/
inductive VmCall
  | vmalloc (size new : ℕ)
  | vfree (range : ℕ)

namespace VmSys

variable {P : PageSource} {sys sys' : VmSys P} {call : VmCall} {calls : List VmCall}
  {rs rs' : List Range} {T T' : ℕ → Set (BitVec 64)} {fuel size new range : ℕ} {l l' : LiveRange}

/-- One call. -/
def exec (fuel : ℕ) (sys : VmSys P) : VmCall → Option (VmSys P)
  | .vmalloc size new => (sys.st.vmalloc fuel size new).map fun r =>
    { st := r.2
      live := match r.1 with
        | some addr => ⟨addr, size, r.2.obtained.drop sys.st.obtained.length⟩ :: sys.live
        | none => sys.live }
  | .vfree range => (sys.st.vfree fuel range).map fun st =>
    { st := st, live := sys.live.filter fun l => l.addr ≠ range }

/-- A free range has room for the size, and the allocators have memory; what is freed is live. -/
def Allowed (sys : VmSys P) : VmCall → Prop
  | .vmalloc size new => 0 < size ∧ size < 2 ^ 31 ∧ sys.st.ranges.Fresh new ∧
    (∃ rs, sys.st.ranges.Ranges rs ∧
      ∃ r ∈ rs, r.inUse = false ∧ pageCount size * pageSize ≤ r.size) ∧
    P.supplies (4 * pageCount size) sys.st.mapper.pages = true
  | .vfree range => ∃ l ∈ sys.live, l.addr = range

/-- The range list, the tables and the page allocator agree on the live ranges. -/
structure Inv (sys : VmSys P) (rs : List Range) (T : ℕ → Set (BitVec 64)) : Prop where
  ranges : sys.st.ranges.Ranges rs
  arena : Arena rs
  tables : VmTables sys.st.mapper sys.st.kernel sys.st.cr3 T
  unlocked : sys.st.vmallocLock = false ∧ sys.st.ptLock = false
  inUse : ∀ l ∈ sys.live, l.range ∈ rs
  addrs : ∀ l ∈ sys.live, ∀ l' ∈ sys.live, l.addr = l'.addr → l = l'
  length : ∀ l ∈ sys.live, l.pages.length = pageCount l.size
  backed : ∀ l ∈ sys.live, ∀ i p, l.pages[i]? = some p →
    sys.st.mapper.MapsTo sys.st.kernel (pageOf l.addr i) p
  page : ∀ l ∈ sys.live, ∀ p ∈ l.pages, p.toNat < 2 ^ 43 ∧ p ∈ P.used sys.st.mapper.pages ∧
    p ∈ sys.st.obtained ∧ ∀ k, p ∉ T k
  nodup : (sys.live.flatMap LiveRange.pages).Nodup

/-! ### What the calls do -/

/-- Each page of a live range translates to its own page. -/
structure Backs (sys : VmSys P) (l : LiveRange) : Prop where
  length : l.pages.length = pageCount l.size
  translates : ∀ i p, l.pages[i]? = some p → ∀ v, pageNumber v = pageNumber (pageOf l.addr i) →
    sys.st.mapper.virtToPfn sys.st.cr3 v = (p.toNat / pageSize : ℕ) ∧
      sys.st.mapper.isMappedNolock (sys.st.mapper.va sys.st.kernel) v = true ∧
      sys.st.mapper.isMappedNolock (sys.st.mapper.va sys.st.cr3) v = true
  obtained : ∀ p ∈ l.pages, p ∈ sys.st.obtained ∧ p ∈ P.used sys.st.mapper.pages

/-- What `vmalloc` does: the range was free, and its pages were not in use. -/
structure Allocated (sys : VmSys P) (size : ℕ) (l : LiveRange) (sys' : VmSys P) : Prop where
  live : sys'.live = l :: sys.live
  size_eq : l.size = size
  obtained : sys'.st.obtained = sys.st.obtained ++ l.pages
  freed : sys'.st.freed = sys.st.freed
  fresh : ∀ p ∈ l.pages, p ∉ P.used sys.st.mapper.pages
  backs : sys'.Backs l
  ranges : ∃ rs rs', sys.st.ranges.Ranges rs ∧ sys'.st.ranges.Ranges rs' ∧
    Carved (pageCount size * pageSize) rs l.addr rs'

/-- What `vfree` of a live range does: its pages are passed to `pgfree`, in order, its addresses are
unmapped and its range is not in use any more. Nothing else changes. -/
structure Freed (sys : VmSys P) (l : LiveRange) (sys' : VmSys P) : Prop where
  live : ∀ l', l' ∈ sys'.live ↔ l' ∈ sys.live ∧ l' ≠ l
  freed : sys'.st.freed = sys.st.freed ++ l.pages
  obtained : sys'.st.obtained = sys.st.obtained
  nodup : l.pages.Nodup
  used : P.used sys'.st.mapper.pages = P.used sys.st.mapper.pages \ {p | p ∈ l.pages}
  ranges : ∃ rs, sys.st.ranges.Ranges rs ∧ l.range ∈ rs ∧
    sys'.st.ranges.Ranges (release l.addr rs)
  unmapped : ∀ v, (∃ i < pageCount l.size, pageNumber v = pageNumber (pageOf l.addr i)) →
    sys'.st.mapper.isMappedNolock (sys'.st.mapper.va sys'.st.kernel) v = false ∧
      sys'.st.mapper.isMappedNolock (sys'.st.mapper.va sys'.st.cr3) v = false
  translates : ∀ v, vmallocTop ≤ (getIndex 3 v).toNat →
    (∀ i < pageCount l.size, pageNumber v ≠ pageNumber (pageOf l.addr i)) →
    sys'.st.mapper.virtToPfn sys'.st.cr3 v = sys.st.mapper.virtToPfn sys.st.cr3 v ∧
      sys'.st.mapper.isMappedNolock (sys'.st.mapper.va sys'.st.kernel) v =
        sys.st.mapper.isMappedNolock (sys.st.mapper.va sys.st.kernel) v ∧
      sys'.st.mapper.isMappedNolock (sys'.st.mapper.va sys'.st.cr3) v =
        sys.st.mapper.isMappedNolock (sys.st.mapper.va sys.st.cr3) v
  mem : ∀ a, (∀ i < pageCount l.size,
      sys.st.mapper.leafSlot sys.st.kernel (pageOf l.addr i) ≠ some a) →
    sys'.st.mapper.mem a = sys.st.mapper.mem a
  roots : sys'.st.kernel = sys.st.kernel ∧ sys'.st.cr3 = sys.st.cr3

/-! ### The state -/

theorem pageCount_eq (h : size < 2 ^ 31) : pageCount size = (size + 4095) / 4096 := by
  rw [pageCount, pageSize]
  omega

/-- A range of the arena that is made of whole pages. -/
theorem inArena {u : Bool} {a n : ℕ} (h : Arena rs) (hr : ⟨a, n * pageSize, u⟩ ∈ rs) :
    InArena a n := by
  obtain ⟨hlo, -, hhi⟩ := h.tiles.bounds hr
  refine ⟨h.tiles.dvd_addr (by decide) h.pages hr, hlo, ?_⟩
  rw [Nat.mul_comm]
  exact hhi

theorem Inv.inArena (h : sys.Inv rs T) (hl : l ∈ sys.live) : InArena l.addr (pageCount l.size) :=
  VmSys.inArena h.arena (h.inUse l hl)

/-- Page `i` of a range is in its block. -/
theorem mem_block {i : ℕ} (hi : i < pageCount l.size) :
    l.addr + pageSize * i ∈ l.range.block := by
  refine ⟨Nat.le_add_right _ _, ?_⟩
  show l.addr + pageSize * i < l.addr + pageCount l.size * pageSize
  rw [pageSize]
  omega

/-- Pages of different live ranges are different. -/
theorem Inv.pageNumber_ne (h : sys.Inv rs T) (hl : l ∈ sys.live) (hl' : l' ∈ sys.live)
    (hne : l ≠ l') {i j : ℕ} (hi : i < pageCount l.size) (hj : j < pageCount l'.size) :
    pageNumber (pageOf l.addr i) ≠ pageNumber (pageOf l'.addr j) := by
  intro heq
  have haddr := (h.inArena hl).eq_of_pageNumber (h.inArena hl') hi hj heq
  have hmem := mem_block hj
  rw [← haddr] at hmem
  have hrange := h.arena.tiles.eq_of_mem_block (h.inUse l hl) (h.inUse l' hl') (mem_block hi) hmem
  exact hne (h.addrs l hl l' hl' (congrArg Range.addr hrange))

theorem Inv.backs (h : sys.Inv rs T) (hl : l ∈ sys.live) : sys.Backs l where
  length := h.length l hl
  translates i p hp v hv := by
    have hi := (List.getElem?_eq_some_iff.mp hp).1
    rw [h.length l hl] at hi
    have htop : vmallocTop ≤ (getIndex 3 v).toNat :=
      lo_le_congr hv.symm ((h.inArena hl).top_le hi)
    have hmap : sys.st.mapper.MapsTo sys.st.kernel v p := by
      rw [MapsTo, leafOf_congr _ _ hv]
      exact h.backed l hl i p hp
    obtain ⟨hlt, -⟩ := h.page l hl p (List.mem_of_getElem? hp)
    obtain ⟨hkernel, hcr3⟩ := h.tables.isMapped htop
    refine ⟨?_, hkernel.trans (decide_eq_true hmap.1), hcr3.trans (decide_eq_true hmap.1)⟩
    rw [h.tables.virtToPfn htop, hmap.2, toInt_frame hlt]
    rfl
  obtained p hp := by
    obtain ⟨-, hused, hob, -⟩ := h.page l hl p hp
    exact ⟨hob, hused⟩

/-! ### `vmalloc` -/

/-- `vmalloc`, once `vmalloc_map_range` and the loop have returned. -/
theorem vmalloc_eq {st st' : VmState P} {ranges : VmallocState} {a : ℕ}
    (hlock : st.vmallocLock = false)
    (hret : st.ranges.vmallocMapRange fuel (pageCount size * pageSize) new =
      some (ranges, some a))
    (hloop : VmState.vmallocLoop a (pgWrite ||| pgNx) (pageCount size) 0
      { st with ranges := ranges, vmallocLock := true } = some st') :
    st.vmalloc fuel size new = some (some a, { st' with vmallocLock := false }) := by
  have hdiv : pageCount size * pageSize / pageSize = pageCount size :=
    Nat.mul_div_cancel _ (by decide)
  rw [VmState.vmalloc, if_neg (by simp [hlock]), VmState.vmallocNolock]
  simp only [hret, Option.bind_eq_bind, Option.bind_some, hdiv, Option.getD_some]
  rw [hloop]
  rfl

/-- A carved range overlaps no live one. -/
theorem Inv.carved_ne {a n : ℕ} (h : sys.Inv rs T) (hc : Carved (n * pageSize) rs a rs')
    (harena : InArena a n) (hl : l ∈ sys.live) {i j : ℕ} (hi : i < pageCount l.size) (hj : j < n) :
    pageNumber (pageOf l.addr i) ≠ pageNumber (pageOf a j) := by
  intro heq
  have haddr := (h.inArena hl).eq_of_pageNumber harena hi hj heq
  have hdisj := hc.disjoint h.arena.tiles (h.inUse l hl) rfl
  refine Set.disjoint_left.mp hdisj ⟨?_, ?_⟩ (mem_block hi)
  · rw [haddr]
    exact Nat.le_add_right _ _
  · rw [haddr, pageSize]
    omega

/-- The range that was carved out comes on the list of live ones. -/
theorem Inv.add (hlow : ∀ {st p st'}, P.alloc st = some (p, st') → p.toNat < 2 ^ 43)
    {ranges : VmallocState} {m' : MapperState P} (h : sys.Inv rs T) (harena' : Arena rs')
    (harena : InArena l.addr (pageCount l.size)) (hpos : 0 < pageCount l.size)
    (hc : Carved (pageCount l.size * pageSize) rs l.addr rs') (hranges : ranges.Ranges rs')
    (hlen : l.pages.length = pageCount l.size)
    (hm : PagesMapped sys.st.mapper T sys.st.kernel sys.st.cr3 l.addr 0 l.pages m' T')
    (hst' : sys'.st = { sys.st with
      ranges := ranges
      mapper := m'
      obtained := sys.st.obtained ++ l.pages
      vmallocLock := false })
    (hlive : sys'.live = l :: sys.live) : sys'.Inv rs' T' := by
  have hne : ∀ l' ∈ sys.live, l'.addr ≠ l.addr := by
    intro l' hl' heq
    have hpos' : 0 < pageCount l'.size :=
      Nat.pos_of_mul_pos_right (h.arena.tiles.bounds (h.inUse l' hl')).2.1
    refine h.carved_ne hc harena hl' hpos' hpos ?_
    rw [heq]
  have hfresh : ∀ l' ∈ sys.live, ∀ p ∈ l'.pages, p ∉ l.pages := fun l' hl' p hp hp' =>
    hm.fresh p hp' (h.page l' hl' p hp).2.1
  obtain ⟨st', live'⟩ := sys'
  obtain rfl : st' = _ := hst'
  obtain rfl : live' = _ := hlive
  refine ⟨hranges, harena', hm.tables, ⟨rfl, h.unlocked.2⟩, ?_, ?_, ?_, ?_, ?_, ?_⟩
  · exact List.forall_mem_cons.mpr
      ⟨hc.mem, fun l' hl' => hc.mem_of_inUse (h.inUse l' hl') rfl⟩
  · intro l₁ hl₁ l₂ hl₂ heq
    rcases List.mem_cons.mp hl₁ with h₁ | h₁
    · rcases List.mem_cons.mp hl₂ with h₂ | h₂
      · rw [h₁, h₂]
      · exact absurd (heq.symm.trans (congrArg LiveRange.addr h₁)) (hne l₂ h₂)
    · rcases List.mem_cons.mp hl₂ with h₂ | h₂
      · exact absurd (heq.trans (congrArg LiveRange.addr h₂)) (hne l₁ h₁)
      · exact h.addrs l₁ h₁ l₂ h₂ heq
  · exact List.forall_mem_cons.mpr ⟨hlen, h.length⟩
  · refine List.forall_mem_cons.mpr ⟨fun i p hp => ?_, fun l' hl' i p hp => ?_⟩
    · have := hm.backed i p hp
      rwa [Nat.zero_add] at this
    · have hi : i < pageCount l'.size := h.length l' hl' ▸ (List.getElem?_eq_some_iff.mp hp).1
      refine (h.backed l' hl' i p hp).congr (hm.other _ ((h.inArena hl').top_le hi) fun j hj => ?_)
      rw [Nat.zero_add]
      exact h.carved_ne hc harena hl' hi (hlen ▸ hj)
  · refine List.forall_mem_cons.mpr ⟨fun p hp => ?_, fun l' hl' p hp => ?_⟩
    · obtain ⟨_, _, halloc⟩ := hm.source p hp
      exact ⟨hlow halloc, hm.inUse p hp, List.mem_append_right _ hp, hm.notTable p hp⟩
    · obtain ⟨hlt, hused, hob, hnot⟩ := h.page l' hl' p hp
      refine ⟨hlt, hm.used hused, List.mem_append_left _ hob, fun k hk => ?_⟩
      exact (hm.new hk).elim (hnot k) fun hu => hu hused
  · rw [List.flatMap_cons, List.nodup_append]
    refine ⟨hm.nodup, h.nodup, fun p hp q hq heq => ?_⟩
    obtain ⟨l', hl', hq⟩ := List.mem_flatMap.mp hq
    exact hfresh l' hl' q hq (heq ▸ hp)

/-- **`vmalloc`** returns a range, and keeps the invariant. -/
theorem Inv.vmalloc (hlow : ∀ {st p st'}, P.alloc st = some (p, st') → p.toNat < 2 ^ 43)
    (h : sys.Inv rs T) (hok : sys.Allowed (.vmalloc size new)) (hfuel : rs.length < fuel) :
    ∃ sys' rs' T' l, sys.exec fuel (.vmalloc size new) = some sys' ∧ sys.Allocated size l sys' ∧
      sys'.Inv rs' T' ∧ rs'.length ≤ rs.length + 1 := by
  obtain ⟨hpos, hlt, hnew, ⟨rs₁, hrs₁, r, hr, hfree, hroom⟩, hpages⟩ := hok
  obtain rfl := hrs₁.unique h.ranges
  have hcount : 0 < pageCount size := by
    rw [pageCount_eq hlt]
    omega
  have hsize : pageCount size * pageSize ≠ 0 ∧ pageCount size * pageSize % pageSize = 0 := by
    rw [pageSize]
    omega
  rcases hrs₁.mapRange hnew hfuel hsize with ⟨-, hnone⟩ | ⟨a, ranges, rs', hret, hc, hrs'⟩
  · exact absurd ⟨hfree, hroom⟩ (hnone r hr)
  · have harena' := h.arena.carved hsize hc
    have harena : InArena a (pageCount size) := VmSys.inArena harena' hc.mem
    obtain ⟨m', ps, T', hloop, hlen, hmapped⟩ := VmState.vmallocLoop_spec
      (s := { sys.st with ranges := ranges, vmallocLock := true })
      (i := 0) (pgWrite ||| pgNx) h.tables h.unlocked.2 (by decide) harena (Nat.zero_add _).le hpages
    let l : LiveRange := ⟨a, size, ps⟩
    let sys' : VmSys P :=
      { st := { sys.st with
          ranges := ranges
          mapper := m'
          obtained := sys.st.obtained ++ ps
          vmallocLock := false }
        live := l :: sys.live }
    have hexec : sys.exec fuel (.vmalloc size new) = some sys' := by
      rw [exec, vmalloc_eq h.unlocked.1 hret hloop]
      simp only [Option.map_some, List.drop_left]
      rfl
    have hinv' : sys'.Inv rs' T' :=
      h.add (l := l) hlow harena' harena hcount hc hrs' hlen hmapped rfl rfl
    refine ⟨sys', rs', T', l, hexec, ⟨rfl, rfl, rfl, rfl, hmapped.fresh, ?_, ?_⟩, hinv',
      hc.length_le⟩
    · exact hinv'.backs List.mem_cons_self
    · exact ⟨rs₁, rs', hrs₁, hrs', hc⟩

/-! ### `vfree` -/

/-- The loop of `_vfree` goes on without a change at a node with another address. -/
theorem vfreeBody_of_ne {st : VmState P} {x : ℕ} (hx : (st.ranges.rangeOf x).addr ≠ range) :
    VmState.vfreeBody range st x = (st, none) := by
  rw [VmState.vfreeBody]
  exact if_neg hx

/-- Clearing the flag of the only node at the address. -/
theorem ranges_release {st : VmallocState} {xs : List ℕ} {x : ℕ}
    (hw : Walk st.next st.root xs) (hx : (st.rangeOf x).addr = range)
    (hother : ∀ y ∈ xs, y ≠ x → (st.rangeOf y).addr ≠ range) :
    (unmapRangeBody range st x).1.Ranges (release range (xs.map st.rangeOf)) := by
  refine ⟨xs, ?_, ?_⟩
  · rw [next_unmapRangeBody, root_unmapRangeBody]
    exact hw
  · rw [Tiling.release, List.map_map]
    refine List.map_congr_left fun y hy => ?_
    show (if (st.rangeOf y).addr = range then { st.rangeOf y with inUse := false }
      else st.rangeOf y) = _
    by_cases hyx : y = x
    · subst hyx
      exact (rangeOf_unmapRangeBody_self st y).symm
    · rw [if_neg (hother y hy hyx), rangeOf_unmapRangeBody st x hyx]

/-- The ranges of an arena are in increasing order, so no two nodes have one address. -/
theorem addr_ne {st : VmallocState} {as bs : List ℕ} {x y : ℕ}
    (harena : Arena ((as ++ x :: bs).map st.rangeOf)) (hy : y ∈ as ∨ y ∈ bs) :
    (st.rangeOf y).addr ≠ (st.rangeOf x).addr := by
  have hpair := List.pairwise_map.mp harena.tiles.pairwise
  rw [List.pairwise_append, List.pairwise_cons] at hpair
  obtain ⟨-, ⟨hafter, -⟩, hbefore⟩ := hpair
  have hpos : ∀ z ∈ as ++ x :: bs, 0 < (st.rangeOf z).size := fun z hz =>
    (harena.tiles.bounds (List.mem_map_of_mem hz)).2.1
  intro heq
  rcases hy with hy | hy
  · have := hbefore y hy x List.mem_cons_self
    have := hpos y (List.mem_append_left _ hy)
    omega
  · have := hafter y hy
    have := hpos x (List.mem_append_right _ List.mem_cons_self)
    omega

/-- **The loop of `_vfree`** stops at the range and gives it back. -/
theorem vfreeNolock_eq (st : VmState P) {a n : ℕ} (h : st.ranges.Ranges rs) (harena : Arena rs)
    (hr : ⟨a, n * pageSize, true⟩ ∈ rs) (hfuel : rs.length < fuel) :
    ∃ ranges : VmallocState, ranges.Ranges (release a rs) ∧
      st.vfreeNolock fuel a = VmState.vreleaseLoop a n 0 { st with ranges := ranges } := by
  obtain ⟨xs, hw, rfl⟩ := h
  obtain ⟨x, hx, hrange⟩ := List.mem_map.mp hr
  obtain ⟨as, bs, rfl⟩ := List.append_of_mem hx
  have haddr : (st.ranges.node x).addr = a := congrArg Range.addr hrange
  have hsize : (st.ranges.node x).size = n * pageSize := congrArg Range.size hrange
  have hrx : (st.ranges.rangeOf x).addr = a := haddr
  have has : ∀ y ∈ as, (st.ranges.rangeOf y).addr ≠ a := fun y hy =>
    hrx ▸ addr_ne harena (.inl hy)
  have hother : ∀ y ∈ as ++ x :: bs, y ≠ x → (st.ranges.rangeOf y).addr ≠ a := by
    intro y hy hne
    rcases List.mem_append.mp hy with hy | hy
    · exact has y hy
    · exact hrx ▸ addr_ne harena (.inr ((List.mem_cons.mp hy).resolve_left hne))
  refine ⟨(unmapRangeBody a st.ranges x).1, ranges_release hw hrx hother, ?_⟩
  let st₁ : VmState P := { st with ranges := (unmapRangeBody a st.ranges x).1 }
  have hbody : VmState.vfreeBody a st x = (st₁, some (VmState.vreleaseLoop a n 0 st₁)) := by
    have hclear : (unmapRangeBody a st.ranges x).1 = st.ranges.setNode x
        { st.ranges.node x with flags := (st.ranges.node x).flags &&& ~~~vmInuse } := by
      rw [unmapRangeBody, if_pos haddr]
    simp only [st₁, hclear]
    rw [VmState.vfreeBody, if_pos haddr, haddr, hsize, Nat.mul_div_cancel _ (by decide)]
  have hnext : ∀ (st : VmState P) (x : ℕ), (VmState.vfreeBody a st x).2 = none →
      (VmState.vfreeBody a st x).1.ranges.next = st.ranges.next := by
    intro st x hnone
    rw [VmState.vfreeBody] at hnone ⊢
    split at hnone
    · simp at hnone
    · next hne => rw [if_neg hne]
  have hloop : forEach (fun st : VmState P => st.ranges.next) (VmState.vfreeBody a) fuel st
      st.ranges.root = some (forList (VmState.vfreeBody a) st (as ++ x :: bs)) :=
    forEach_eq_forList hnext hw (by simpa using hfuel)
  rw [VmState.vfreeNolock, hloop,
    forList_append_of_skip fun y hy => vfreeBody_of_ne (has y hy), forList_cons_of_exit hbody]

/-- **`vfree`** of a live range returns, and keeps the invariant. -/
theorem Inv.vfree (h : sys.Inv rs T) (hl : l ∈ sys.live) (hfuel : rs.length < fuel) :
    ∃ sys', sys.exec fuel (.vfree l.addr) = some sys' ∧ sys.Freed l sys' ∧
      sys'.Inv (release l.addr rs) T := by
  have harena := h.inArena hl
  have hlen := h.length l hl
  obtain ⟨ranges, hranges, hbody⟩ := vfreeNolock_eq { sys.st with vmallocLock := true }
    h.ranges h.arena (h.inUse l hl) hfuel
  obtain ⟨m', hloop, hm⟩ := VmState.vreleaseLoop_spec
    (s := { sys.st with ranges := ranges, vmallocLock := true }) (i := 0) h.tables h.unlocked.2
    harena (by omega) (fun j p hp => by simpa using h.backed l hl j p hp)
    (fun p hp => (h.page l hl p hp).1) fun p hp => (h.page l hl p hp).2.2.2
  let sys' : VmSys P :=
    { st := { sys.st with
        ranges := ranges
        mapper := m'
        freed := sys.st.freed ++ l.pages
        vmallocLock := false }
      live := sys.live.filter fun l' => l'.addr ≠ l.addr }
  have hexec : sys.exec fuel (.vfree l.addr) = some sys' := by
    rw [hlen] at hloop
    rw [exec, VmState.vfree, if_neg (by simp [h.unlocked.1]), hbody, hloop]
    rfl
  have hlive : ∀ l', l' ∈ sys'.live ↔ l' ∈ sys.live ∧ l' ≠ l := by
    intro l'
    simp only [sys', List.mem_filter, decide_eq_true_eq]
    refine and_congr_right fun hl' => not_congr ⟨h.addrs l' hl' l hl, congrArg _⟩
  have hother : ∀ l' ∈ sys.live, l' ≠ l → ∀ i < pageCount l'.size, ∀ j < l.pages.length,
      pageNumber (pageOf l'.addr i) ≠ pageNumber (pageOf l.addr (0 + j)) := by
    intro l' hl' hne i hi j hj
    rw [Nat.zero_add]
    exact h.pageNumber_ne hl' hl hne hi (hlen ▸ hj)
  have hnodup := List.nodup_flatMap.mp h.nodup
  have hdisj : ∀ l' ∈ sys.live, l' ≠ l → ∀ p ∈ l'.pages, p ∉ l.pages := by
    intro l' hl' hne p hp hp'
    have hsymm : Std.Symm (Function.onFun List.Disjoint LiveRange.pages) :=
      ⟨fun _ _ hd => List.Disjoint.symm hd⟩
    exact hnodup.2.forall hl' hl hne hp hp'
  have hinv' : sys'.Inv (release l.addr rs) T := by
    refine ⟨hranges, h.arena.release l.addr, hm.tables, ⟨rfl, h.unlocked.2⟩, fun l' hl' => ?_,
      fun l₁ hl₁ l₂ hl₂ => ?_, fun l' hl' => ?_, fun l' hl' i p hp => ?_, fun l' hl' p hp => ?_, ?_⟩
    · obtain ⟨hl', hne⟩ := (hlive l').mp hl'
      exact mem_release_of_ne (h.inUse l' hl') fun heq => hne (h.addrs l' hl' l hl heq)
    · exact h.addrs l₁ ((hlive l₁).mp hl₁).1 l₂ ((hlive l₂).mp hl₂).1
    · exact h.length l' ((hlive l').mp hl').1
    · obtain ⟨hl', hne⟩ := (hlive l').mp hl'
      have hi : i < pageCount l'.size := h.length l' hl' ▸ (List.getElem?_eq_some_iff.mp hp).1
      exact (h.backed l' hl' i p hp).congr
        (hm.other _ ((h.inArena hl').top_le hi) (hother l' hl' hne i hi))
    · obtain ⟨hl', hne⟩ := (hlive l').mp hl'
      obtain ⟨hlt, hused, hob, hnot⟩ := h.page l' hl' p hp
      refine ⟨hlt, ?_, hob, hnot⟩
      show p ∈ P.used m'.pages
      rw [hm.used]
      exact ⟨hused, hdisj l' hl' hne p hp⟩
    · exact h.nodup.sublist (List.filter_sublist.flatMap _)
  refine ⟨sys', hexec, ?_, hinv'⟩
  refine ⟨hlive, rfl, rfl, hnodup.1 l hl, hm.used, ⟨rs, h.ranges, h.inUse l hl, hranges⟩,
    fun v hv => ?_, fun v htop hv => ?_, fun a ha => ?_, ⟨rfl, rfl⟩⟩
  · obtain ⟨i, hi, heq⟩ := hv
    have htop : vmallocTop ≤ (getIndex 3 v).toNat := lo_le_congr heq.symm (harena.top_le hi)
    have hzero : m'.leafOf sys.st.kernel v = 0 :=
      hm.unmapped v ⟨i, hlen ▸ hi, by rwa [Nat.zero_add]⟩
    have hclear : ¬ m'.leafOf sys.st.kernel v &&& pgPresent ≠ 0 := by
      rw [hzero]
      decide
    obtain ⟨hkernel, hcr3⟩ := hm.tables.isMapped htop
    exact ⟨hkernel.trans (decide_eq_false hclear), hcr3.trans (decide_eq_false hclear)⟩
  · have hleaf : m'.leafOf sys.st.kernel v = sys.st.mapper.leafOf sys.st.kernel v := by
      refine hm.other v htop fun j hj => ?_
      rw [Nat.zero_add]
      exact hv j (hlen ▸ hj)
    have hpfn' := hm.tables.virtToPfn htop
    have hpfn := h.tables.virtToPfn htop
    obtain ⟨hkernel', hcr3'⟩ := hm.tables.isMapped htop
    obtain ⟨hkernel, hcr3⟩ := h.tables.isMapped htop
    rw [hleaf] at hpfn' hkernel' hcr3'
    exact ⟨hpfn'.trans hpfn.symm, hkernel'.trans hkernel.symm, hcr3'.trans hcr3.symm⟩
  · refine hm.mem a fun j hj => ?_
    rw [Nat.zero_add]
    exact ha j (hlen ▸ hj)

/-! ### Whole runs -/

/-- **One call** that is allowed returns. It keeps the invariant and adds at most one range to the
arena. -/
theorem Inv.exec (hlow : ∀ {st p st'}, P.alloc st = some (p, st') → p.toNat < 2 ^ 43)
    (h : sys.Inv rs T) (hok : sys.Allowed call) (hfuel : rs.length < fuel) :
    ∃ sys' rs' T', sys.exec fuel call = some sys' ∧ sys'.Inv rs' T' ∧
      rs'.length ≤ rs.length + 1 := by
  cases call with
  | vmalloc size new =>
    obtain ⟨sys', rs', T', l, hexec, -, h', hlen⟩ := h.vmalloc hlow hok hfuel
    exact ⟨sys', rs', T', hexec, h', hlen⟩
  | vfree range =>
    obtain ⟨l, hl, rfl⟩ := hok
    obtain ⟨sys', hexec, -, h'⟩ := h.vfree hl hfuel
    refine ⟨sys', _, T, hexec, h', ?_⟩
    rw [Tiling.release, List.length_map]
    exact Nat.le_succ _

/-- What holds after a run. -/
theorem Inv.run {n : ℕ} (hlow : ∀ {st p st'}, P.alloc st = some (p, st') → p.toNat < 2 ^ 43)
    (h : sys.Inv rs T) (hn : rs.length ≤ n) (hrun : Run (VmSys.exec fuel) Allowed sys calls sys')
    (hfuel : n + calls.length < fuel) :
    ∃ rs' T', sys'.Inv rs' T' ∧ rs'.length ≤ n + calls.length := by
  induction hrun generalizing rs T n with
  | nil => exact ⟨rs, T, h, hn⟩
  | @cons sys sys₁ sys' call calls hok hstep hrun ih =>
    rw [List.length_cons] at hfuel ⊢
    have hlt : rs.length < fuel := by omega
    obtain ⟨sys₂, rs₂, T₂, hexec, h₂, hlen⟩ := h.exec hlow hok hlt
    rw [hstep] at hexec
    obtain rfl := Option.some.inj hexec
    have hlen₂ : rs₂.length ≤ n + 1 := by omega
    obtain ⟨rs', T', h', hlen'⟩ := ih h₂ hlen₂ (by omega)
    exact ⟨rs', T', h', by omega⟩

/-- The state after `vmalloc_init`, with the locks free. -/
structure Init (st : VmState P) (T : ℕ → Set (BitVec 64)) : Prop where
  ranges : ∃ ranges new, st.ranges = VmallocState.vmallocInit ranges new
  tables : VmTables st.mapper st.kernel st.cr3 T
  unlocked : st.vmallocLock = false ∧ st.ptLock = false

theorem Init.inv {st : VmState P} (h : Init st T) :
    (VmSys.mk st []).Inv [⟨vmallocStart, vmallocEnd - vmallocStart, false⟩] T := by
  obtain ⟨ranges, new, hranges⟩ := h.ranges
  refine ⟨?_, arena_init, h.tables, h.unlocked, ?_, ?_, ?_, ?_, ?_, List.nodup_nil⟩
  · show st.ranges.Ranges _
    rw [hranges]
    exact ranges_vmallocInit ranges new
  all_goals exact fun l hl => absurd hl List.not_mem_nil

end VmSys

/-- **Conservation.** Over every run of `vmalloc` and of `vfree` of live ranges after
`vmalloc_init`, with more fuel than calls: the next call returns; each page of a live range
translates to its own page, obtained from `pgalloc` and shared with no other live range; `vmalloc`
takes a free range and fresh pages; and `vfree` gives back exactly the pages of its range, once,
unmaps its addresses, and changes nothing else. -/
theorem vmalloc_run_conserves {P : PageSource} {st : VmState P} {T : ℕ → Set (BitVec 64)}
    {fuel : ℕ} {calls : List VmCall} {sys : VmSys P}
    (hlow : ∀ {st p st'}, P.alloc st = some (p, st') → p.toNat < 2 ^ 43) (hinit : VmSys.Init st T)
    (hfuel : calls.length + 1 < fuel)
    (hrun : Run (VmSys.exec fuel) VmSys.Allowed ⟨st, []⟩ calls sys) :
    (∀ l ∈ sys.live, sys.Backs l) ∧ (sys.live.flatMap LiveRange.pages).Nodup ∧
      (∀ size new, sys.Allowed (.vmalloc size new) →
        ∃ sys' l, sys.exec fuel (.vmalloc size new) = some sys' ∧ sys.Allocated size l sys') ∧
      ∀ l ∈ sys.live, ∃ sys', sys.exec fuel (.vfree l.addr) = some sys' ∧ sys.Freed l sys' := by
  obtain ⟨rs, T', h, hlen⟩ := hinit.inv.run hlow (n := 1) le_rfl hrun (by omega)
  have hlt : rs.length < fuel := by omega
  refine ⟨fun l hl => h.backs hl, h.nodup, fun size new hok => ?_, fun l hl => ?_⟩
  · obtain ⟨sys', rs', T'', l, hexec, hal, -⟩ := h.vmalloc hlow hok hlt
    exact ⟨sys', l, hexec, hal⟩
  · obtain ⟨sys', hexec, hfreed, -⟩ := h.vfree hl hlt
    exact ⟨sys', hexec, hfreed⟩

/-! ### A small run -/

theorem sevenPages_low {st st' : sevenPages.State} {p : BitVec 64}
    (h : sevenPages.alloc st = some (p, st')) : p.toNat < 2 ^ 43 := by
  obtain ⟨q, hq, heq⟩ := Option.map_eq_some_iff.mp h
  obtain ⟨rfl, -⟩ := Prod.mk.inj heq
  have hmem := List.mem_of_find?_eq_some hq
  simp only [List.mem_cons, List.not_mem_nil, or_false] at hmem
  rcases hmem with rfl | rfl | rfl | rfl | rfl | rfl | rfl <;> decide

/-- A new arena over an empty table, which is also the current one. -/
def emptyVm : VmState sevenPages where
  ranges := (VmallocState.mk none fun _ => ⟨0, 0, 0, none⟩).vmallocInit 0
  mapper := oneEntryTable 0
  kernel := 0x1000
  ptLock := false
  cr3 := 0x1000
  vmallocLock := false
  obtained := []
  freed := []

theorem init_emptyVm : VmSys.Init emptyVm (rootOnly 0x1000) := by
  obtain ⟨ht, hu⟩ := tables_oneEntryTable (e := 0) (by decide)
  have hroot : (0x1000 : BitVec 64) ∈ rootOnly 0x1000 3 := mem_rootOnly.mpr ⟨rfl, rfl⟩
  refine ⟨⟨_, _, rfl⟩, ?_, rfl, rfl⟩
  exact VmTables.of_lower (Nat.zero_le _) ht hu absentClear_oneEntryTable hroot hroot (Or.inl rfl)

theorem ranges_emptyVm :
    emptyVm.ranges.Ranges [⟨vmallocStart, vmallocEnd - vmallocStart, false⟩] :=
  ranges_vmallocInit _ 0

theorem fresh_emptyVm : emptyVm.ranges.Fresh 1 := by
  intro xs hw
  obtain rfl : xs = [0] := hw.unique ⟨rfl, rfl⟩
  decide

theorem allowed_emptyVm : VmSys.Allowed ⟨emptyVm, []⟩ (.vmalloc 100 1) := by
  refine ⟨by decide, by decide, fresh_emptyVm,
    ⟨_, ranges_emptyVm, _, List.mem_singleton_self _, rfl, ?_⟩, ?_⟩
  · decide
  · decide +kernel

/-- Mapping 100 bytes in a new arena, and giving them back. -/
theorem vmalloc_run_conserves_page :
    ∃ sys l sys', Run (VmSys.exec 3) VmSys.Allowed ⟨emptyVm, []⟩ [.vmalloc 100 1] sys ∧
      sys.live = [l] ∧ sys.Backs l ∧ sys.exec 3 (.vfree l.addr) = some sys' ∧
      sys.Freed l sys' := by
  obtain ⟨sys, rs', T', l, hexec, hal, -⟩ :=
    init_emptyVm.inv.vmalloc sevenPages_low allowed_emptyVm (show 1 < 3 by decide)
  have hrun := Run.cons allowed_emptyVm hexec (.nil sys)
  have hl : l ∈ sys.live := by
    rw [hal.live]
    exact List.mem_cons_self
  obtain ⟨hbacks, -, -, hfree⟩ :=
    vmalloc_run_conserves sevenPages_low init_emptyVm (by decide) hrun
  obtain ⟨sys', hexec', hfreed⟩ := hfree l hl
  exact ⟨sys, l, sys', hrun, hal.live, hbacks l hl, hexec', hfreed⟩

end GoofyOs
