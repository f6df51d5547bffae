import Mathlib.Data.Set.Card
import GoofyOs.MappedPages

/-!
# Mapping physical memory

`vmap_contiguous` takes a range with its pages from `_vmalloc`, and then maps the pages of the
range anew, to the physical pages that it was asked for. Its test for a crossed page boundary
shifts the wrong way and holds of every request in the physical address space, so the range has one
page more than the size needs.

The pages that `_vmalloc` mapped first stay in use and are named nowhere any more.
`vunmap_contiguous` compares the address that the caller got, with the offset in the page, to the
addresses of the ranges, and returns with the lock when it finds one.

The loops compute byte offsets as `int`s. From round `2 ^ 19` on these have no defined value, and
the calls are taken not to return.

## Main definitions

* `VmState.vmapContiguous`, `VmState.vunmapContiguous` — the functions of the source
* `MapperState.translate` — the physical address of an address
* `VmState.MapsContiguous` — what was asked of `vmap_contiguous`
* `VmState.Undone` — what was asked of `vunmap_contiguous`

## Main results

* `vmap_contiguous_maps` — `vmap_contiguous` maps what was asked
* `vunmap_never_undoes` — the pair never leaves as many free pages
-/

namespace GoofyOs

open LinkedList Tiling MapperState VmallocState

namespace VmState

variable {P : PageSource} (s : VmState P)

/-- The number of pages that `vmap_contiguous` takes. -/
def vmapPageCount (phys : BitVec 64) (size : ℕ) : ℕ :=
  if phys <<< 12 < (phys + BitVec.ofNat 64 size) <<< 12 then pageCount size + 1 else pageCount size

/-- The loop of `vmap_contiguous`, with `n` rounds to go. -/
def vmapLoop (addr : ℕ) (alignedAddr flags : BitVec 64) : ℕ → ℕ → VmState P → Option (VmState P)
  | 0, _, s => some s
  | n + 1, i, s => do
    let s ← s.mapPage (alignedAddr + BitVec.ofNat 64 (pageSize * i)) (pageOf addr i) flags
    vmapLoop addr alignedAddr flags n (i + 1) s

/-- `vmap_contiguous`. A null range is address 0. -/
def vmapContiguous (fuel : ℕ) (phys : BitVec 64) (size new : ℕ) : Option (ℕ × VmState P) :=
  if s.vmallocLock then none
  else if vmapPageCount phys size > 2 ^ 19 then none
  else do
    let (range, s) ← vmallocNolock { s with vmallocLock := true } fuel
      (vmapPageCount phys size * pageSize) new (pgWrite ||| pgNx)
    let s ← vmapLoop (range.getD 0) (phys &&& ~~~0xfff) (pgWrite ||| pgNx)
      (vmapPageCount phys size) 0 s
    pure (range.getD 0 + (phys &&& 0xfff).toNat, { s with vmallocLock := false })

/-- The body of the loop of `vunmap_contiguous`, which returns from the function at the range. -/
def vunmapBody (range : ℕ) (s : VmallocState) (curr : ℕ) : VmallocState × Option Unit :=
  let c := s.node curr
  if c.addr = range then (s.setNode curr { c with flags := c.flags &&& ~~~vmInuse }, some ())
  else (s, none)

/-- `vunmap_contiguous`. The early return keeps the lock. -/
def vunmapContiguous (fuel range : ℕ) : Option (VmState P) :=
  if s.vmallocLock then none
  else (forEach VmallocState.next (vunmapBody range) fuel s.ranges s.ranges.root).map fun r =>
    { s with ranges := r.1, vmallocLock := r.2.isSome }

end VmState

variable {P : PageSource} {m m' m'' : MapperState P} {lo addr i n fuel size new v : ℕ}
  {r phys flags : BitVec 64} {T T' T'' : ℕ → Set (BitVec 64)} {es es' : List (BitVec 64)}
  {rs rs' : List Range}

/-! ### Requests -/

/-- Below `2 ^ 52` the shifts lose nothing, and the test always holds. -/
theorem vmapPageCount_eq (hsize : 0 < size) (hphys : phys.toNat + size < 2 ^ 52) :
    VmState.vmapPageCount phys size = (size + 4095) / 4096 + 1 := by
  have hlt : phys <<< 12 < (phys + BitVec.ofNat 64 size) <<< 12 := by
    rw [BitVec.lt_def, BitVec.toNat_shiftLeft, BitVec.toNat_shiftLeft, BitVec.toNat_add,
      BitVec.toNat_ofNat, Nat.shiftLeft_eq, Nat.shiftLeft_eq]
    omega
  rw [VmState.vmapPageCount, if_pos hlt, pageCount, pageSize]
  omega

/-- `aligned_addr`. -/
theorem toNat_alignedAddr (phys : BitVec 64) :
    (phys &&& ~~~0xfff).toNat = phys.toNat / 4096 * 4096 := by
  have hmask := toNat_and_mask phys (~~~0xfff) 64 le_rfl (by decide) (by decide)
  have hphys := phys.isLt
  omega

/-! ### The loop of `vmap_contiguous` -/

/-- The entries that `vmap_contiguous` writes, from page `i` on. -/
def contiguousEntries (alignedAddr flags : BitVec 64) (i n : ℕ) : List (BitVec 64) :=
  (List.range' i n).map fun j =>
    pageEntry flags (alignedAddr + BitVec.ofNat 64 (pageSize * j))

/-- A later stretch over the same pages. -/
theorem PagesEntered.override (h : PagesEntered lo r addr i es m T m' T')
    (h' : PagesEntered lo r addr i es' m' T' m'' T'') (hlen : es.length ≤ es'.length) :
    PagesEntered lo r addr i es' m T m'' T'' where
  tree := h'.tree
  hhdmOffset := h'.hhdmOffset.trans h.hhdmOffset
  new ht := by
    rcases h'.new ht with ht | ht
    · exact h.new ht
    · exact Or.inr fun hu => ht (h.used hu)
  used := h.used.trans h'.used
  self := h'.self
  other w hw hne := (h'.other w hw hne).trans (h.other w hw fun j hj => hne j (by omega))
  mem a ha := by
    have ha' : Apart m' lo T' a := ha.grow h.hhdmOffset h.tree.tables.isPage h.new h.used
    exact (h'.mem a ha').trans (h.mem a ha)

namespace VmState

variable {s s' s₁ : VmState P} {alignedAddr : BitVec 64}

/-- **The loop of `vmap_contiguous`**, when it returns. -/
theorem vmapLoop_entered (h : TableTree s.mapper lo s.kernel T) {total : ℕ}
    (hspan : PageSpan lo addr total) (hn : i + n ≤ total)
    (hloop : vmapLoop addr alignedAddr flags n i s = some s') :
    ∃ m' T', s' = { s with mapper := m' } ∧
      PagesEntered lo s.kernel addr i (contiguousEntries alignedAddr flags i n)
        s.mapper T m' T' := by
  induction n generalizing s T i with
  | zero =>
    obtain rfl : s = s' := Option.some.inj hloop
    exact ⟨s.mapper, T, rfl, h.setPages addr i subset_rfl⟩
  | succ n ih =>
    rw [vmapLoop] at hloop
    obtain ⟨s₁, hmap, hloop⟩ := Option.bind_eq_some_iff.mp hloop
    obtain ⟨-, m₁, hm₁, rfl⟩ := mapPage_eq_some hmap
    obtain ⟨T₁, hone⟩ := h.mapPage (hspan.lo_le (by omega)) hm₁
    obtain ⟨m', T', rfl, hrest⟩ := ih (s := { s with mapper := m₁ }) hone.tree (i := i + 1)
      (by omega) hloop
    refine ⟨m', T', rfl, ?_⟩
    exact hone.append hspan (n := total) (by simp; omega) hrest

/-- The loop allocates nothing where all pages have entries, and returns. -/
theorem vmapLoop_returns (alignedAddr : BitVec 64) (h : TableTree s.mapper lo s.kernel T)
    (hlock : s.ptLock = false) (hflags : flags &&& ~~~pgFlagmask = 0) {total : ℕ}
    (hspan : PageSpan lo addr total) (hn : i + n ≤ total)
    (hentries : ∀ j < n, s.mapper.leafOf s.kernel (pageOf addr (i + j)) ≠ 0) :
    ∃ m', vmapLoop addr alignedAddr flags n i s = some { s with mapper := m' } ∧
      m'.pages = s.mapper.pages := by
  induction n generalizing s T i with
  | zero => exact ⟨s.mapper, rfl, rfl⟩
  | succ n ih =>
    obtain ⟨b, -, hmap⟩ := mapPage_of_leafOf (alignedAddr + BitVec.ofNat 64 (pageSize * i))
      (hentries 0 (Nat.succ_pos n)) hflags
    obtain ⟨m₁, hm₁⟩ : ∃ m₁, m₁ = s.mapper.write b (alignedAddr +
      BitVec.ofNat 64 (pageSize * i) ||| flags ||| pgPresent) := ⟨_, rfl⟩
    have hsame : m₁.pages = s.mapper.pages := by
      rw [hm₁]
      rfl
    rw [Nat.add_zero, ← hm₁] at hmap
    obtain ⟨T₁, hone⟩ := h.mapPage (hspan.lo_le (by omega)) hmap
    have hrest : ∀ j < n, m₁.leafOf s.kernel (pageOf addr (i + 1 + j)) ≠ 0 := by
      intro j hj
      rw [hone.other _ (hspan.lo_le (by omega)) fun l hl heq => ?_, Nat.add_right_comm]
      · exact hentries (j + 1) (by omega)
      · obtain rfl : l = 0 := by simpa using hl
        have := hspan.inj (by omega) (by omega) heq
        omega
    obtain ⟨m', hloop, hpages⟩ := ih (s := { s with mapper := m₁ }) hone.tree hlock (i := i + 1)
      (by omega) hrest
    refine ⟨m', ?_, hpages.trans hsame⟩
    rw [vmapLoop, mapPage, if_neg (by simp [hlock]), hmap]
    exact hloop

/-! ### `vmap_contiguous` -/

/-- The loop of `_vmalloc` returns if there are four pages for each round. -/
theorem vmallocLoop_returns (hlock : s.ptLock = false) (hflags : flags &&& ~~~pgFlagmask = 0)
    (hpages : P.supplies (4 * n) s.mapper.pages = true) :
    ∃ s', vmallocLoop addr flags n i s = some s' ∧ s'.ptLock = false := by
  induction n generalizing s i with
  | zero => exact ⟨s, rfl, hlock⟩
  | succ n ih =>
    obtain ⟨p, -, m₁, -, -, hrest, hround⟩ := vmallocLoop_succ hlock hflags hpages
    obtain ⟨s', hloop, hlock'⟩ := ih
      (s := { s with mapper := m₁, obtained := s.obtained ++ [p] }) hlock (i := i + 1) hrest
    exact ⟨s', (hround n).trans hloop, hlock'⟩

/-- What a call of `vmap_contiguous` with `n` pages does that takes the range from `a` on. -/
structure VmapDone (s : VmState P) (lo : ℕ) (T : ℕ → Set (BitVec 64)) (rs : List Range)
    (phys : BitVec 64) (n a : ℕ) (s' : VmState P) : Prop where
  pos : 0 < n
  inArena : InArena a n
  ranges : ∃ rs', s'.ranges.Ranges rs' ∧ Arena rs' ∧ Carved (n * pageSize) rs a rs'
  entered : ∃ T', PagesEntered lo s.kernel a 0
    (contiguousEntries (phys &&& ~~~0xfff) (pgWrite ||| pgNx) 0 n) s.mapper T s'.mapper T'
  taken : ∃ ps, ps.length = n ∧ PagesTaken s.mapper ps s'.mapper
  kernel : s'.kernel = s.kernel
  unlocked : s'.vmallocLock = false

theorem pageCount_mul (hn : n ≤ 2 ^ 19) : pageCount (n * pageSize) = n := by
  rw [pageCount, pageSize]
  omega

/-- **`vmap_contiguous`**, when it returns, has taken a range or found none. -/
theorem vmapContiguous_done (hrs : s.ranges.Ranges rs) (harena : Arena rs)
    (hfuel : rs.length < fuel) (hnew : s.ranges.Fresh new)
    (htree : TableTree s.mapper lo s.kernel T)
    (hlo : lo ≤ vmallocTop) (hret : s.vmapContiguous fuel phys size new = some (v, s')) :
    (v = phys.toNat % 4096 ∧ (vmapPageCount phys size = 0 ∨
        ∀ r ∈ rs, ¬ (r.inUse = false ∧ vmapPageCount phys size * pageSize ≤ r.size))) ∨
      ∃ a, v = a + phys.toNat % 4096 ∧
        s.VmapDone lo T rs phys (vmapPageCount phys size) a s' := by
  rw [vmapContiguous] at hret
  split at hret
  · cases hret
  · split at hret
    · cases hret
    · next hn =>
      generalize vmapPageCount phys size = n at hret hn ⊢
      have hcount := pageCount_mul (Nat.not_lt.mp hn)
      obtain ⟨⟨range, s₁⟩, hvmalloc, hret⟩ := Option.bind_eq_some_iff.mp hret
      obtain ⟨s₂, hvmap, hret⟩ := Option.bind_eq_some_iff.mp hret
      rw [vmallocNolock] at hvmalloc
      obtain ⟨⟨ranges, range'⟩, hrange, hvmalloc⟩ := Option.bind_eq_some_iff.mp hvmalloc
      obtain ⟨s₃, hloop, heq⟩ := Option.bind_eq_some_iff.mp hvmalloc
      cases heq
      cases hret
      rw [toNat_and_fff]
      rw [hcount] at hrange
      rcases Nat.eq_zero_or_pos n with rfl | hpos
      · rw [vmallocMapRange, if_pos (.inl (Nat.zero_mul _))] at hrange
        cases hrange
        exact .inl ⟨Nat.zero_add _, .inl rfl⟩
      · have hsize : n * pageSize ≠ 0 ∧ n * pageSize % pageSize = 0 :=
          ⟨Nat.mul_ne_zero hpos.ne' (by decide), Nat.mul_mod_left _ _⟩
        rcases hrs.mapRange hnew hfuel hsize with
          ⟨hnone, hfull⟩ | ⟨a, ranges', rs', hsome, hc, hrs'⟩
        · cases hrange.symm.trans hnone
          exact .inl ⟨Nat.zero_add _, .inr hfull⟩
        · cases hrange.symm.trans hsome
          refine .inr ⟨a, rfl, ?_⟩
          rw [hcount, Nat.mul_div_cancel _ (by decide)] at hloop
          have harena' := harena.carved hsize hc
          have hin : InArena a n := VmSys.inArena harena' hc.mem
          have hspan : PageSpan lo a n := hin.pageSpan hlo
          obtain ⟨m₁, ps, T₁, rfl, hlen, hfirst, htaken⟩ :=
            vmallocLoop_entered (s := { s with ranges := ranges, vmallocLock := true }) htree hspan
              (Nat.zero_add n).le hloop
          obtain ⟨m₂, T₂, rfl, hsecond⟩ :=
            vmapLoop_entered hfirst.tree hspan (Nat.zero_add n).le hvmap
          refine ⟨hpos, hin, ⟨rs', hrs', harena', hc⟩, ⟨T₂, ?_⟩, ⟨ps, hlen, ?_⟩, rfl, rfl⟩
          · exact hfirst.override hsecond (by simp [contiguousEntries, hlen])
          · exact ⟨htaken.isPage, htaken.nodup, htaken.fresh,
              fun p hp => hsecond.used (htaken.inUse p hp)⟩

/-- **`vmap_contiguous` returns** if a free range has room and there are four pages for each page
that it takes: the second loop allocates nothing. -/
theorem vmapContiguous_returns (hrs : s.ranges.Ranges rs) (harena : Arena rs)
    (hfuel : rs.length < fuel) (hnew : s.ranges.Fresh new)
    (htree : TableTree s.mapper lo s.kernel T)
    (hlo : lo ≤ vmallocTop) (hlock : s.vmallocLock = false ∧ s.ptLock = false)
    (hn : 0 < n ∧ n ≤ 2 ^ 19) (hcount : vmapPageCount phys size = n)
    (hroom : ∃ r ∈ rs, r.inUse = false ∧ n * pageSize ≤ r.size)
    (hpages : P.supplies (4 * n) s.mapper.pages = true) :
    ∃ a s', s.vmapContiguous fuel phys size new = some (a + phys.toNat % 4096, s') := by
  obtain ⟨r, hr, hfree, hle⟩ := hroom
  have hsize : n * pageSize ≠ 0 ∧ n * pageSize % pageSize = 0 :=
    ⟨Nat.mul_ne_zero hn.1.ne' (by decide), Nat.mul_mod_left _ _⟩
  rcases hrs.mapRange hnew hfuel hsize with ⟨-, hnone⟩ | ⟨a, ranges, rs', hrange, hc, -⟩
  · exact absurd ⟨hfree, hle⟩ (hnone r hr)
  · have hin : InArena a n := VmSys.inArena (harena.carved hsize hc) hc.mem
    have hspan : PageSpan lo a n := hin.pageSpan hlo
    have hflags : (pgWrite ||| pgNx) &&& ~~~pgFlagmask = 0 := by decide
    obtain ⟨s₁, hloop, hlock₁⟩ : ∃ s₁, vmallocLoop a (pgWrite ||| pgNx) n 0
        { s with ranges := ranges, vmallocLock := true } = some s₁ ∧ s₁.ptLock = false :=
      vmallocLoop_returns hlock.2 hflags hpages
    obtain ⟨m₁, ps, T₁, rfl, hlen, hfirst, -⟩ := vmallocLoop_entered
      (s := { s with ranges := ranges, vmallocLock := true }) htree hspan (Nat.zero_add n).le hloop
    have hentries : ∀ j < n, m₁.leafOf s.kernel (pageOf a (0 + j)) ≠ 0 := by
      intro j hj
      rw [hfirst.self j _ (List.getElem?_eq_getElem (by simpa [hlen] using hj)), List.getElem_map]
      exact pageEntry_ne_zero _ _
    obtain ⟨m₂, hvmap, -⟩ := vmapLoop_returns (phys &&& ~~~0xfff) hfirst.tree hlock₁ hflags hspan
      (Nat.zero_add n).le hentries
    refine ⟨a, { s with
      ranges := ranges
      mapper := m₂
      vmallocLock := false
      obtained := s.obtained ++ ps }, ?_⟩
    rw [vmapContiguous, if_neg (by simp [hlock.1]), hcount, if_neg (Nat.not_lt.mpr hn.2),
      vmallocNolock, pageCount_mul hn.2]
    simp only [hrange, Option.bind_eq_bind, Option.bind_some, Option.getD_some,
      Nat.mul_div_cancel n (show 0 < pageSize by decide)]
    rw [hloop]
    simp only [Option.bind_some, Option.pure_def, Option.getD_some]
    rw [hvmap, Option.bind_some, toNat_and_fff]

end VmState

/-- The physical address that an address is mapped to. -/
def MapperState.translate (m : MapperState P) (r v : BitVec 64) : Option (BitVec 64) :=
  if m.leafOf r v &&& pgPresent ≠ 0 then some ((m.leafOf r v &&& addrMask) + (v &&& 0xfff))
  else none

/-- The addresses that the processor accepts. -/
def Canonical (v : BitVec 64) : Prop := v.toNat < 2 ^ 47 ∨ 2 ^ 64 - 2 ^ 47 ≤ v.toNat

/-- A canonical address outside of a range of the arena is on no page of it. -/
theorem InArena.pageNumber_ne (h : InArena addr n) {w : BitVec 64} (hw : Canonical w)
    (hout : w.toNat ∉ Set.Ico addr (addr + n * pageSize)) (hi : i < n) :
    pageNumber w ≠ pageNumber (pageOf addr i) := by
  intro heq
  have heq := congrArg BitVec.toNat heq
  obtain ⟨c, hc⟩ := h.dvd
  have hlt := h.lt hi
  rw [toNat_pageNumber, toNat_pageNumber, pageOf, BitVec.toNat_ofNat] at heq
  rw [vmallocStart, vmallocEnd] at hlt
  rw [Canonical] at hw
  rw [pageSize] at *
  refine hout ⟨?_, ?_⟩
  · omega
  · omega

namespace VmState

/-- **What is asked of `vmap_contiguous`**, when it returns the address `v`: the addresses from `v`
on are mapped to the physical ones from `phys` on, in one range in use that was free before, and no
address outside of this range changes its translation. Words that are no part of the tables from
the index `lo` on do not change either. -/
structure MapsContiguous (s : VmState P) (lo : ℕ) (T : ℕ → Set (BitVec 64)) (phys : BitVec 64)
    (size v : ℕ) (s' : VmState P) : Prop where
  mapped : ∀ i < size, s'.mapper.isMappedNolock (s'.mapper.va s.kernel) (BitVec.ofNat 64 (v + i)) =
    true
  translates : ∀ i < size, s'.mapper.translate s.kernel (BitVec.ofNat 64 (v + i)) =
    some (phys + BitVec.ofNat 64 i)
  range : ∃ rs rs' r, s.ranges.Ranges rs ∧ s'.ranges.Ranges rs' ∧ r ∈ rs' ∧ r.inUse = true ∧
    (∀ r' ∈ rs, r'.inUse = true → Disjoint r.block r'.block) ∧ Set.Ico v (v + size) ⊆ r.block ∧
    ∀ w, Canonical w → lo ≤ (getIndex 3 w).toNat → w.toNat ∉ r.block →
      s'.mapper.translate s.kernel w = s.mapper.translate s.kernel w
  mem : ∀ a, Apart s.mapper lo T a → s'.mapper.mem a = s.mapper.mem a

variable {s s' : VmState P}

/-- The page and the offset of byte `i` of a request. -/
theorem request_page {a off i : ℕ} (h : InArena a n) (hi : (off + i) / 4096 < n) :
    pageNumber (BitVec.ofNat 64 (a + off + i)) = pageNumber (pageOf a ((off + i) / 4096)) ∧
      (BitVec.ofNat 64 (a + off + i) &&& 0xfff).toNat = (off + i) % 4096 := by
  obtain ⟨c, hc⟩ := h.dvd
  have hlt := h.lt hi
  have hfits := h.fits
  rw [vmallocEnd, pageSize] at hfits hlt
  rw [pageSize] at hc
  refine ⟨BitVec.eq_of_toNat_eq ?_, ?_⟩
  · rw [toNat_pageNumber, toNat_pageNumber, pageOf, BitVec.toNat_ofNat, BitVec.toNat_ofNat,
      pageSize]
    omega
  · rw [toNat_and_fff, BitVec.toNat_ofNat]
    omega

theorem VmapDone.maps {rs : List Range} {a : ℕ} (h : s.VmapDone lo T rs phys n a s')
    (hrs : s.ranges.Ranges rs) (harena : Arena rs) (hn : n = (size + 4095) / 4096 + 1)
    (hphys : phys.toNat + size < 2 ^ 52) :
    s.MapsContiguous lo T phys size (a + phys.toNat % 4096) s' := by
  obtain ⟨T', hentered⟩ := h.entered
  obtain ⟨rs', hrs', -, hc⟩ := h.ranges
  have hleaf : ∀ i < size, s'.mapper.leafOf s.kernel
      (BitVec.ofNat 64 (a + phys.toNat % 4096 + i)) = pageEntry (pgWrite ||| pgNx)
        ((phys &&& ~~~0xfff) + BitVec.ofNat 64 (pageSize * ((phys.toNat % 4096 + i) / 4096))) := by
    intro i hi
    have hj : (phys.toNat % 4096 + i) / 4096 < n := by omega
    rw [leafOf_congr _ _ (request_page h.inArena hj).1]
    have hself := hentered.self ((phys.toNat % 4096 + i) / 4096) _
      (List.getElem?_eq_getElem (by simpa [contiguousEntries] using hj))
    rw [Nat.zero_add] at hself
    rw [hself]
    simp [contiguousEntries]
  refine ⟨fun i hi => isMapped_of_leafOf ?_, fun i hi => ?_, ?_, hentered.mem⟩
  · rw [hleaf i hi]
    exact pageEntry_present _ _
  · have hj : (phys.toNat % 4096 + i) / 4096 < n := by omega
    have hsum : ((phys &&& ~~~0xfff) +
        BitVec.ofNat 64 (pageSize * ((phys.toNat % 4096 + i) / 4096))).toNat =
          phys.toNat / 4096 * 4096 + 4096 * ((phys.toNat % 4096 + i) / 4096) := by
      rw [BitVec.toNat_add, toNat_alignedAddr, BitVec.toNat_ofNat, pageSize]
      omega
    have hpage : IsPage ((phys &&& ~~~0xfff) +
        BitVec.ofNat 64 (pageSize * ((phys.toNat % 4096 + i) / 4096))) := by
      rw [isPage_iff, hsum]
      omega
    rw [MapperState.translate, hleaf i hi, pageEntry, if_pos (pageEntry_present _ _),
      pageEntry_and_addrMask hpage (by decide)]
    refine congrArg some (BitVec.eq_of_toNat_eq ?_)
    rw [BitVec.toNat_add, hsum, (request_page h.inArena hj).2, BitVec.toNat_add, BitVec.toNat_ofNat]
    omega
  · refine ⟨rs, rs', _, hrs, hrs', hc.mem, rfl, fun r' hr' hu => hc.disjoint harena.tiles hr' hu,
      ?_, fun w hw hlow hout => ?_⟩
    · refine Set.Ico_subset_Ico (Nat.le_add_right _ _) ?_
      show _ ≤ a + n * pageSize
      rw [pageSize]
      omega
    · rw [MapperState.translate, MapperState.translate, hentered.other w hlow fun j hj => ?_]
      rw [Nat.zero_add]
      exact h.inArena.pageNumber_ne hw hout (by simpa [contiguousEntries] using hj)

end VmState

open VmState in
/-- **`vmap_contiguous` maps what was asked**, for every request in the physical address space for
which a free range has room. It returns if there are four pages for each page that it takes; and
whenever it returns, no page allocation has failed, and the mapping is there. With `lo = 0` the
last part is about all addresses. -/
theorem vmap_contiguous_maps {s : VmState P} (hrs : s.ranges.Ranges rs) (harena : Arena rs)
    (hfuel : rs.length < fuel) (hnew : s.ranges.Fresh new)
    (htree : TableTree s.mapper lo s.kernel T)
    (hlo : lo ≤ vmallocTop) (hlock : s.vmallocLock = false ∧ s.ptLock = false)
    (hsize : 0 < size ∧ size < 2 ^ 31 - 8192) (hphys : phys.toNat + size < 2 ^ 52)
    (hroom : ∃ r ∈ rs, r.inUse = false ∧ vmapPageCount phys size * pageSize ≤ r.size) :
    (P.supplies (4 * vmapPageCount phys size) s.mapper.pages = true →
        (s.vmapContiguous fuel phys size new).isSome) ∧
      ∀ v s', s.vmapContiguous fuel phys size new = some (v, s') →
        s.MapsContiguous lo T phys size v s' := by
  have hcount := vmapPageCount_eq hsize.1 hphys
  have hn : 0 < vmapPageCount phys size ∧ vmapPageCount phys size ≤ 2 ^ 19 := by omega
  constructor
  · intro hpages
    obtain ⟨a, s', hret⟩ :=
      vmapContiguous_returns hrs harena hfuel hnew htree hlo hlock hn rfl hroom hpages
    rw [hret]
    rfl
  · intro v s' hret
    rcases vmapContiguous_done hrs harena hfuel hnew htree hlo hret with
      ⟨-, hzero | hfull⟩ | ⟨a, rfl, hdone⟩
    · exact absurd hzero hn.1.ne'
    · obtain ⟨r, hr, hfree⟩ := hroom
      exact absurd hfree (hfull r hr)
    · exact hdone.maps hrs harena hcount hphys

/-! ### A small request -/

theorem emptyVm_vmapContiguous : ∃ s', emptyVm.vmapContiguous 3 0x9123 100 1 =
    some (0xffffdfffffffe123, s') := by
  have haddr : (emptyVm.vmapContiguous 3 0x9123 100 1).map Prod.fst =
      some 0xffffdfffffffe123 := by decide +kernel
  obtain ⟨⟨v, s'⟩, hret, rfl⟩ := Option.map_eq_some_iff.mp haddr
  exact ⟨s', hret⟩

/-- Mapping 100 bytes from the physical address `0x9123` on. -/
theorem vmap_contiguous_maps_emptyVm : ∃ s',
    emptyVm.vmapContiguous 3 0x9123 100 1 = some (0xffffdfffffffe123, s') ∧
      emptyVm.MapsContiguous 0 (rootOnly 0x1000) 0x9123 100 0xffffdfffffffe123 s' := by
  obtain ⟨s', hret⟩ := emptyVm_vmapContiguous
  exact ⟨s', hret, (vmap_contiguous_maps ranges_emptyVm arena_init (by decide) fresh_emptyVm
    tableTree_emptyVm (by decide) ⟨rfl, rfl⟩ (by decide) (by decide)
    ⟨_, List.mem_singleton_self _, rfl, by decide⟩).2 _ s' hret⟩

/-! ### `vunmap_contiguous` -/

theorem next_vunmapBody {ranges : VmallocState} {x : ℕ}
    (hnone : (VmState.vunmapBody v ranges x).2 = none) :
    VmallocState.next (VmState.vunmapBody v ranges x).1 = ranges.next := by
  rw [VmState.vunmapBody] at hnone ⊢
  split at hnone
  · cases hnone
  · next hne => rw [if_neg hne]

/-- No range starts at the address. -/
theorem vunmapLoop_none {ranges : VmallocState} (hrs : ranges.Ranges rs) (hfuel : rs.length < fuel)
    (haddr : ∀ r ∈ rs, r.addr ≠ v) :
    forEach VmallocState.next (VmState.vunmapBody v) fuel ranges ranges.root =
      some (ranges, none) := by
  obtain ⟨xs, hw, rfl⟩ := hrs
  have hskip : ∀ x ∈ xs, VmState.vunmapBody v ranges x = (ranges, none) := by
    intro x hx
    exact if_neg (haddr _ (List.mem_map_of_mem hx))
  rw [forEach_eq_forList (fun _ _ => next_vunmapBody) hw (by simpa using hfuel),
    forList_of_skip hskip]

/-- The range at the address is given back. -/
theorem vunmapLoop_some {ranges : VmallocState} (hrs : ranges.Ranges rs) (harena : Arena rs)
    (hfuel : rs.length < fuel) {r : Range} (hr : r ∈ rs) :
    ∃ ranges' : VmallocState, forEach VmallocState.next (VmState.vunmapBody r.addr) fuel ranges
      ranges.root = some (ranges', some ()) ∧ ranges'.Ranges (release r.addr rs) := by
  obtain ⟨xs, hw, rfl⟩ := hrs
  obtain ⟨x, hx, rfl⟩ := List.mem_map.mp hr
  obtain ⟨as, bs, rfl⟩ := List.append_of_mem hx
  have hbody : VmState.vunmapBody (ranges.rangeOf x).addr ranges x =
      ((unmapRangeBody (ranges.rangeOf x).addr ranges x).1, some ()) := by
    have haddr : (ranges.node x).addr = (ranges.rangeOf x).addr := rfl
    rw [VmState.vunmapBody, unmapRangeBody, if_pos haddr, if_pos haddr]
  have hskip : ∀ y ∈ as, VmState.vunmapBody (ranges.rangeOf x).addr ranges y = (ranges, none) := by
    intro y hy
    exact if_neg (VmSys.addr_ne harena (.inl hy))
  have hother : ∀ y ∈ as ++ x :: bs, y ≠ x →
      (ranges.rangeOf y).addr ≠ (ranges.rangeOf x).addr := by
    intro y hy hne
    rcases List.mem_append.mp hy with hy | hy
    · exact VmSys.addr_ne harena (.inl hy)
    · exact VmSys.addr_ne harena (.inr ((List.mem_cons.mp hy).resolve_left hne))
  refine ⟨_, ?_, VmSys.ranges_release hw rfl hother⟩
  rw [forEach_eq_forList (fun _ _ => next_vunmapBody) hw (by simpa using hfuel),
    forList_append_of_skip hskip, forList_cons_of_exit hbody]

namespace VmState

variable {s s₁ s₂ : VmState P} {a : ℕ}

/-- The range of the arena that holds the address is free. -/
def Available (s : VmState P) (v : ℕ) : Prop :=
  ∃ rs r, s.ranges.Ranges rs ∧ r ∈ rs ∧ v ∈ r.block ∧ r.inUse = false

/-- As many pages were given back as were taken. -/
def SamePages (s s' : VmState P) : Prop :=
  (P.used s'.mapper.pages \ P.used s.mapper.pages).encard =
    (P.used s.mapper.pages \ P.used s'.mapper.pages).encard

/-- **What is asked of `vunmap_contiguous`**, in the state `s₁` after the call of `vmap_contiguous`
in `s` that returned `v`. -/
def Undone (s s₁ : VmState P) (fuel v : ℕ) : Prop :=
  ∃ s₂, s₁.vunmapContiguous fuel v = some s₂ ∧ s₂.vmallocLock = false ∧ s₂.Available v ∧
    s.SamePages s₂

/-- Pages were taken, and none was given back. -/
theorem VmapDone.not_samePages (h : s.VmapDone lo T rs phys n a s₁)
    (hpages : s₂.mapper.pages = s₁.mapper.pages) : ¬ s.SamePages s₂ := by
  obtain ⟨T', hentered⟩ := h.entered
  obtain ⟨ps, hlen, htaken⟩ := h.taken
  obtain ⟨p, hp⟩ := List.exists_mem_of_length_pos (hlen ▸ h.pos)
  rw [SamePages, hpages, Set.sdiff_eq_empty.mpr hentered.used, Set.encard_empty, Set.encard_eq_zero]
  intro hempty
  exact Set.notMem_empty p (hempty ▸ ⟨htaken.inUse p hp, htaken.fresh p hp⟩)

/-- What `vunmap_contiguous` does instead: it returns with the lock, and the range is free, if and
only if the physical address was the first of a page. -/
theorem VmapDone.vunmap (h : s.VmapDone lo T rs phys n a s₁) (hfuel : rs.length + 1 < fuel) :
    ∃ s₂, s₁.vunmapContiguous fuel (a + phys.toNat % 4096) = some s₂ ∧
      s₂.mapper = s₁.mapper ∧ (s₂.vmallocLock = true ↔ 4096 ∣ phys.toNat) ∧
      (s₂.Available (a + phys.toNat % 4096) ↔ 4096 ∣ phys.toNat) := by
  obtain ⟨rs', hrs', harena', hc⟩ := h.ranges
  have hlen : rs'.length < fuel := Nat.lt_of_le_of_lt hc.length_le hfuel
  have hlock : ¬ s₁.vmallocLock = true := by simp [h.unlocked]
  rw [vunmapContiguous, if_neg hlock]
  by_cases hdvd : 4096 ∣ phys.toNat
  · rw [Nat.mod_eq_zero_of_dvd hdvd, Nat.add_zero]
    obtain ⟨ranges, hloop, hreleased⟩ := vunmapLoop_some hrs' harena' hlen hc.mem
    rw [hloop]
    refine ⟨_, rfl, rfl, iff_of_true rfl hdvd, iff_of_true ⟨_, ⟨a, n * pageSize, false⟩, hreleased,
      List.mem_map.mpr ⟨_, hc.mem, if_pos rfl⟩, ?_, rfl⟩ hdvd⟩
    have hpos := h.pos
    refine ⟨Nat.le_refl a, ?_⟩
    show a < a + n * pageSize
    rw [pageSize]
    omega
  · have hne : ∀ r ∈ rs', r.addr ≠ a + phys.toNat % 4096 := by
      intro r hr heq
      obtain ⟨c, hc'⟩ :=
        harena'.tiles.dvd_addr (show 4096 ∣ vmallocStart by decide) harena'.pages hr
      obtain ⟨d, hd⟩ := h.inArena.dvd
      rw [pageSize] at hd
      omega
    rw [vunmapLoop_none hrs' hlen hne]
    refine ⟨_, rfl, rfl, iff_of_false (by simp) hdvd, iff_of_false ?_ hdvd⟩
    rintro ⟨rs₂, r, hrs₂, hr, hin, hfree⟩
    obtain rfl : rs₂ = rs' := VmallocState.Ranges.unique hrs₂ hrs'
    have hmem : a + phys.toNat % 4096 ∈ (Range.mk a (n * pageSize) true).block := by
      have hpos := h.pos
      refine ⟨Nat.le_add_right _ _, ?_⟩
      show a + phys.toNat % 4096 < a + n * pageSize
      rw [pageSize]
      omega
    rw [harena'.tiles.eq_of_mem_block hr hc.mem hin hmem] at hfree
    cases hfree

end VmState

open VmState in
/-- **`vunmap_contiguous` never undoes `vmap_contiguous`**: the pages that `_vmalloc` took are not
given back, for any physical address and size. And of the other two parts one fails, which depends
on the offset in the page. -/
theorem vunmap_never_undoes {s s₁ : VmState P} (hrs : s.ranges.Ranges rs) (harena : Arena rs)
    (hfuel : rs.length + 1 < fuel) (hnew : s.ranges.Fresh new)
    (htree : TableTree s.mapper lo s.kernel T) (hlo : lo ≤ vmallocTop)
    (hret : s.vmapContiguous fuel phys size new = some (v, s₁)) (hv : vmallocStart ≤ v) :
    (∃ s₂, s₁.vunmapContiguous fuel v = some s₂ ∧
        (s₂.vmallocLock = true ↔ 4096 ∣ phys.toNat) ∧ (s₂.Available v ↔ 4096 ∣ phys.toNat)) ∧
      ¬ s.Undone s₁ fuel v := by
  rcases vmapContiguous_done hrs harena (by omega) hnew htree hlo hret with
    ⟨rfl, -⟩ | ⟨a, rfl, hdone⟩
  · rw [vmallocStart] at hv
    omega
  · obtain ⟨s₂, hvunmap, hmapper, hlock, havailable⟩ := hdone.vunmap hfuel
    refine ⟨⟨s₂, hvunmap, hlock, havailable⟩, ?_⟩
    rintro ⟨s₃, hvunmap', -, -, hpages⟩
    obtain rfl := Option.some.inj (hvunmap.symm.trans hvunmap')
    exact hdone.not_samePages (congrArg MapperState.pages hmapper) hpages

theorem vunmap_never_undoes_emptyVm : ∃ s₁,
    emptyVm.vmapContiguous 3 0x9123 100 1 = some (0xffffdfffffffe123, s₁) ∧
      ¬ emptyVm.Undone s₁ 3 0xffffdfffffffe123 := by
  obtain ⟨s₁, hret⟩ := emptyVm_vmapContiguous
  exact ⟨s₁, hret, (vunmap_never_undoes ranges_emptyVm arena_init (by decide) fresh_emptyVm
    tableTree_emptyVm (by decide) hret (by decide)).2⟩

open VmState in
/-- The pages that are taken for 100 bytes at `0x9123` are not given back. -/
theorem not_vunmap_undoes :
    ¬ ∀ (P : PageSource) (s s₁ : VmState P) (rs : List Range) (T : ℕ → Set (BitVec 64))
      (phys : BitVec 64) (size new v fuel : ℕ), s.ranges.Ranges rs → Arena rs →
      rs.length + 1 < fuel → s.ranges.Fresh new → TableTree s.mapper 0 s.kernel T →
      s.vmapContiguous fuel phys size new = some (v, s₁) → vmallocStart ≤ v →
      s.Undone s₁ fuel v := by
  intro hall
  obtain ⟨s₁, hret⟩ := emptyVm_vmapContiguous
  obtain ⟨s₂, hvunmap, -, -, hpages⟩ := hall sevenPages emptyVm s₁ _ _ _ _ _ _ _
    ranges_emptyVm arena_init (by decide) fresh_emptyVm tableTree_emptyVm hret (by decide)
  rcases vmapContiguous_done ranges_emptyVm arena_init (by decide) fresh_emptyVm tableTree_emptyVm
    (Nat.zero_le _) hret with ⟨hv, -⟩ | ⟨a, hv, hdone⟩
  · exact absurd hv (by decide)
  · obtain ⟨s₃, hvunmap', hmapper, -⟩ := hdone.vunmap (show _ + 1 < 3 by decide)
    rw [← hv] at hvunmap'
    obtain rfl := Option.some.inj (hvunmap'.symm.trans hvunmap)
    exact hdone.not_samePages (congrArg MapperState.pages hmapper) hpages

end GoofyOs
