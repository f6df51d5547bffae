import GoofyOs.BuddyInit
import GoofyOs.MapperRun

/-!
# The pages of the `struct page` array

`sparse_init` maps the pages that hold the `struct page` of the usable frames. The structs of 64
frames share a page, and `__map_region_struct` goes from the first frame of a region in strides of
64 frames. The first frame need not be a multiple of 64, so the last stride may end before the last
frame comes to lie in the next page of the array.

## Main definitions

* `MapperState.sparseInit` — the code
* `MemmapRegion.Strides` — the pages of the array that a region maps
* `MapperState.KernelTables` — the part of the tables that holds the array

## Main results

* `KernelTables.sparseInit_spec` — which pages are mapped
* `sparseInit_maps_iff` — when every usable frame has its `struct page` mapped
* `not_sparseInit_maps` — a region of two frames
-/

namespace GoofyOs

/-- `STRUCTS_PER_PAGE`, for a `struct page` of 64 bytes. -/
def structsPerPage : ℕ := 0x1000 / 64

/-- `sparsemap_array`. -/
def sparsemapArray : BitVec 64 := 0xffffc00000000000

/-- `pfn_to_page`: the address of `sparsemap_array[pfn]`. -/
def pfnToPage (pfn : ℕ) : BitVec 64 := sparsemapArray + BitVec.ofNat 64 (64 * pfn)

namespace MapperState

variable {P : PageSource}

/-- The loop of `__map_region_struct`, when the table of `pt` is at `cr3`. -/
def mapRegionStruct (cr3 : BitVec 64) (stop curr : ℕ) (s : MapperState P) :
    Option (MapperState P) :=
  if curr < stop then do
    let aligned := pfnToPage (curr >>> 12) &&& ~~~0xfff
    let (page, s) ← s.zpgalloc
    let s ← s.mapPageNolock cr3 (page - s.hhdmOffset) aligned (pgNx ||| pgWrite)
    mapRegionStruct cr3 stop (curr + 0x1000 * structsPerPage) s
  else some s
termination_by stop - curr
decreasing_by
  have : 0x1000 * structsPerPage = 0x40000 := rfl
  omega

/-- `sparse_init`. -/
def sparseInit (cr3 : BitVec 64) : List MemmapRegion → MapperState P → Option (MapperState P)
  | [], s => some s
  | r :: rs, s => (s.mapRegionStruct cr3 (r.base + r.size) r.base).bind (sparseInit cr3 rs)

end MapperState

/-! ### The pages of the array -/

section Pages

variable {pfn pfn' : ℕ}

theorem toNat_pfnToPage (h : pfn < 2 ^ 40) :
    (pfnToPage pfn).toNat = 0xffffc00000000000 + 64 * pfn := by
  have harray : sparsemapArray.toNat = 0xffffc00000000000 := rfl
  rw [pfnToPage, BitVec.toNat_add, BitVec.toNat_ofNat, harray]
  omega

/-- The array is in the upper half. -/
theorem index_pfnToPage (h : pfn < 2 ^ 40) : 384 ≤ (getIndex 3 (pfnToPage pfn)).toNat := by
  rw [toNat_getIndex, toNat_pfnToPage h]
  omega

/-- The structs of 64 frames are on one page. -/
theorem pageNumber_pfnToPage (h : pfn < 2 ^ 40) (h' : pfn' < 2 ^ 40) :
    pageNumber (pfnToPage pfn) = pageNumber (pfnToPage pfn') ↔ pfn / 64 = pfn' / 64 := by
  rw [← BitVec.toNat_inj, toNat_pageNumber, toNat_pageNumber, toNat_pfnToPage h,
    toNat_pfnToPage h']
  omega

theorem pageNumber_and_not (v : BitVec 64) : pageNumber (v &&& ~~~0xfff) = pageNumber v := by
  apply BitVec.eq_of_getLsbD_eq
  intro i hi
  have hmask : (0xfff : BitVec 64).getLsbD (12 + i) = false := by
    rw [show (0xfff : BitVec 64) = BitVec.ofNat 64 (2 ^ 12 - 1) from rfl, BitVec.getLsbD_ofNat,
      Nat.testBit_two_pow_sub_one]
    simp
  rw [pageNumber, pageNumber, BitVec.getLsbD_extractLsb', BitVec.getLsbD_extractLsb',
    BitVec.getLsbD_and, BitVec.getLsbD_not, hmask]
  simp [show 12 + i < 64 by omega]

end Pages

/-! ### Mapping them -/

namespace MapperState

variable {P : PageSource} {s s' s₁ : MapperState P} {T T' : ℕ → Set (BitVec 64)}
  {r v v' page phys flags : BitVec 64} {regions : List MemmapRegion}

/-- The tables at `r` are tables of four levels where the array is, from top-level entry 384 on. -/
structure KernelTables (s : MapperState P) (T : ℕ → Set (BitVec 64)) (r : BitVec 64) : Prop where
  root : r ∈ T 3
  tables : Tables s 384 T
  unshared : Unshared s 384 T
  absentClear : AbsentClear s 384 T

/-- The level 0 entry of `v` is present. -/
def LeafPresent (s : MapperState P) (r v : BitVec 64) : Prop :=
  s.leafOf r v &&& pgPresent ≠ 0

namespace KernelTables

theorem isMapped_iff (h : KernelTables s T r) (hv : 384 ≤ (getIndex 3 v).toNat) :
    s.isMappedNolock (s.va r) v = true ↔ s.LeafPresent r v := by
  rw [isMappedNolock, h.unshared.isMappedWalk h.absentClear h.tables h.root le_rfl hv,
    decide_eq_true_iff]
  rfl

/-- One round of the loop maps one page. -/
theorem mapStruct (h : KernelTables s T r) (hv : 384 ≤ (getIndex 3 v).toNat)
    (hpage : s.zpgalloc = some (page, s₁))
    (hmap : s₁.mapPageNolock (s.va r) phys v flags = some s') :
    ∃ T', KernelTables s' T' r ∧ s'.hhdmOffset = s.hhdmOffset ∧
      ∀ v', 384 ≤ (getIndex 3 v').toNat →
        (s'.LeafPresent r v' ↔ s.LeafPresent r v' ∨ pageNumber v' = pageNumber v) := by
  have hext := h.tables.extends_zpgalloc 3 hpage
  have hunshared := hext.unshared h.unshared
  rw [← hext.va r] at hmap
  obtain ⟨T', hw⟩ := hext.tables.mapPageNolock h.root hv hmap
  refine ⟨T', ⟨hw.sub h.root, hw.tables, hw.unshared hunshared,
    hw.absentClear (hext.absentClear h.absentClear)⟩, hw.hhdmOffset.trans hext.hhdmOffset,
    fun v' hv' => ?_⟩
  by_cases heq : pageNumber v' = pageNumber v
  · simp only [heq, or_true, iff_true]
    rw [LeafPresent, hw.self heq]
    exact pageEntry_present phys flags
  · simp only [heq, or_false]
    rw [LeafPresent, hw.other hunshared h.root hv' heq, hext.leafOf h.root hv']
    rfl

/-- **`__map_region_struct`**, from `curr` on. -/
theorem mapRegionStruct {stop curr : ℕ} (h : KernelTables s T r) (hstop : stop ≤ 2 ^ 52)
    (hrun : s.mapRegionStruct (s.va r) stop curr = some s') :
    ∃ T', KernelTables s' T' r ∧ s'.hhdmOffset = s.hhdmOffset ∧
      ∀ v, 384 ≤ (getIndex 3 v).toNat → (s'.LeafPresent r v ↔ s.LeafPresent r v ∨
        ∃ k, curr + 0x40000 * k < stop ∧
          pageNumber v = pageNumber (pfnToPage (curr / 0x1000 + 64 * k))) := by
  induction hn : stop - curr using Nat.strong_induction_on generalizing curr s T with
  | _ n ih =>
    rw [MapperState.mapRegionStruct] at hrun
    split at hrun
    case isFalse hlt =>
      obtain rfl := Option.some.inj hrun
      refine ⟨T, h, rfl, fun v _ => ?_⟩
      have hnone : ¬∃ k, curr + 0x40000 * k < stop ∧
          pageNumber v = pageNumber (pfnToPage (curr / 0x1000 + 64 * k)) := by
        rintro ⟨k, hk, -⟩
        omega
      simp [hnone]
    case isTrue hlt =>
      obtain ⟨⟨page, s₁⟩, hpage, hrun⟩ := Option.bind_eq_some_iff.mp hrun
      obtain ⟨s₂, hmap, hrun⟩ := Option.bind_eq_some_iff.mp hrun
      have hpfn : curr >>> 12 < 2 ^ 40 := by
        rw [Nat.shiftRight_eq_div_pow]
        omega
      have hv : 384 ≤ (getIndex 3 (pfnToPage (curr >>> 12) &&& ~~~0xfff)).toNat := by
        rw [pageNumber_eq_iff.mp (pageNumber_and_not _) 3 le_rfl]
        exact index_pfnToPage hpfn
      obtain ⟨T₂, h₂, hhdm₂, hpresent₂⟩ := h.mapStruct hv hpage hmap
      have hva : s₂.va r = s.va r := by rw [va, va, hhdm₂]
      have hstride : 0x1000 * structsPerPage = 0x40000 := rfl
      rw [← hva, hstride] at hrun
      obtain ⟨T', h', hhdm', hpresent'⟩ := ih _ (by omega) h₂ hrun rfl
      refine ⟨T', h', hhdm'.trans hhdm₂, fun v hv => ?_⟩
      rw [hpresent' v hv, hpresent₂ v hv, pageNumber_and_not, Nat.shiftRight_eq_div_pow, or_assoc]
      refine or_congr_right ⟨?_, ?_⟩
      · rintro (heq | ⟨k, hk, heq⟩)
        · exact ⟨0, by omega, heq⟩
        · refine ⟨k + 1, by omega, ?_⟩
          rwa [show curr / 0x1000 + 64 * (k + 1) = (curr + 0x40000) / 0x1000 + 64 * k by omega]
      · rintro ⟨k, hk, heq⟩
        cases k with
        | zero => exact Or.inl heq
        | succ k =>
          refine Or.inr ⟨k, by omega, ?_⟩
          rwa [show (curr + 0x40000) / 0x1000 + 64 * k = curr / 0x1000 + 64 * (k + 1) by omega]

end KernelTables

end MapperState

/-- The strides of `__map_region_struct` hit the `g`-th page of the array. -/
def MemmapRegion.Strides (r : MemmapRegion) (g : ℕ) : Prop :=
  0 < r.size ∧ r.base / 0x1000 / 64 ≤ g ∧
    g ≤ r.base / 0x1000 / 64 + (r.size / 0x1000 - 1) / 64

/-- Regions of whole pages, in the physical address space of 52 bits. -/
structure RegionsAligned (regions : List MemmapRegion) : Prop where
  aligned : ∀ r ∈ regions, pageSize ∣ r.base ∧ pageSize ∣ r.size
  top : ∀ r ∈ regions, r.base + r.size ≤ 2 ^ 52

namespace MapperState.KernelTables

variable {P : PageSource} {s s' : MapperState P} {T : ℕ → Set (BitVec 64)} {r : BitVec 64}
  {regions : List MemmapRegion}

/-- **One region.** -/
theorem mapRegion_spec {region : MemmapRegion} (h : KernelTables s T r)
    (hbase : pageSize ∣ region.base) (hsize : pageSize ∣ region.size)
    (htop : region.base + region.size ≤ 2 ^ 52)
    (hrun : s.mapRegionStruct (s.va r) (region.base + region.size) region.base = some s') :
    ∃ T', KernelTables s' T' r ∧ s'.hhdmOffset = s.hhdmOffset ∧ ∀ pfn < 2 ^ 40,
      (s'.LeafPresent r (pfnToPage pfn) ↔
        s.LeafPresent r (pfnToPage pfn) ∨ region.Strides (pfn / 64)) := by
  obtain ⟨T', h', hhdm, hpresent⟩ := h.mapRegionStruct htop hrun
  refine ⟨T', h', hhdm, fun pfn hpfn => ?_⟩
  rw [hpresent _ (index_pfnToPage hpfn)]
  obtain ⟨b, hb⟩ := hbase
  obtain ⟨m, hm⟩ := hsize
  have hpage : pageSize = 0x1000 := rfl
  rw [hpage] at hb hm
  have hb' : region.base / 0x1000 = b := by omega
  have hm' : region.size / 0x1000 = m := by omega
  rw [MemmapRegion.Strides, hb', hm']
  refine or_congr_right ⟨?_, ?_⟩
  · rintro ⟨k, hk, heq⟩
    rw [pageNumber_pfnToPage hpfn (by omega)] at heq
    omega
  · rintro ⟨hpos, hlow, hhigh⟩
    refine ⟨pfn / 64 - b / 64, by omega, ?_⟩
    rw [pageNumber_pfnToPage hpfn (by omega)]
    omega

/-- **`sparse_init`** maps what the strides of the regions hit. -/
theorem sparseInit_spec (h : KernelTables s T r) (hregions : RegionsAligned regions)
    (hrun : s.sparseInit (s.va r) regions = some s') :
    ∃ T', KernelTables s' T' r ∧ s'.hhdmOffset = s.hhdmOffset ∧ ∀ pfn < 2 ^ 40,
      (s'.LeafPresent r (pfnToPage pfn) ↔
        s.LeafPresent r (pfnToPage pfn) ∨ ∃ region ∈ regions, region.Strides (pfn / 64)) := by
  induction regions generalizing s T with
  | nil =>
    obtain rfl := Option.some.inj hrun
    exact ⟨T, h, rfl, by simp⟩
  | cons region regions ih =>
    obtain ⟨s₁, hregion, hrun⟩ := Option.bind_eq_some_iff.mp hrun
    obtain ⟨halign, halign'⟩ := List.forall_mem_cons.mp hregions.aligned
    obtain ⟨htop, htop'⟩ := List.forall_mem_cons.mp hregions.top
    obtain ⟨T₁, h₁, hhdm₁, hpresent₁⟩ := h.mapRegion_spec halign.1 halign.2 htop hregion
    have hva : s₁.va r = s.va r := by rw [va, va, hhdm₁]
    rw [← hva] at hrun
    obtain ⟨T', h', hhdm', hpresent'⟩ := ih h₁ ⟨halign', htop'⟩ hrun
    refine ⟨T', h', hhdm'.trans hhdm₁, fun pfn hpfn => ?_⟩
    rw [hpresent' pfn hpfn, hpresent₁ pfn hpfn, or_assoc]
    refine or_congr_right ?_
    simp

/-- The `struct page` of a frame, after `sparse_init`. -/
theorem isMapped_sparseInit (h : KernelTables s T r) (hregions : RegionsAligned regions)
    (hrun : s.sparseInit (s.va r) regions = some s') {pfn : ℕ} (hpfn : pfn < 2 ^ 40)
    (hinit : s.isMappedNolock (s.va r) (pfnToPage pfn) = false) :
    s'.isMappedNolock (s.va r) (pfnToPage pfn) = true ↔
      ∃ region ∈ regions, region.Strides (pfn / 64) := by
  obtain ⟨T', h', hhdm, hpresent⟩ := h.sparseInit_spec hregions hrun
  have hva : s'.va r = s.va r := by rw [va, va, hhdm]
  have habsent : ¬s.LeafPresent r (pfnToPage pfn) := by
    rw [← h.isMapped_iff (index_pfnToPage hpfn), hinit]
    exact Bool.false_ne_true
  rw [← hva, h'.isMapped_iff (index_pfnToPage hpfn), hpresent pfn hpfn, or_iff_right habsent]

end MapperState.KernelTables

/-! ### The frames of the regions -/

section Regions

variable {regions : List MemmapRegion} {pfn : ℕ}

theorem RegionsAligned.lt_of_mem (hregions : RegionsAligned regions) (hpfn : pfn ∈ frames regions) :
    pfn < 2 ^ 40 := by
  obtain ⟨r, hr, hmem⟩ := List.mem_flatMap.mp hpfn
  have htop := hregions.top r hr
  have hc := MemmapRegion.contains_iff.mp ((MemmapRegion.mem_frames (hregions.aligned r hr)).mp hmem)
  omega

/-- Where the strides of the region stop short of its last frame. -/
def MemmapRegion.FallsShort (r : MemmapRegion) : Prop :=
  0 < r.size ∧ 64 ≤ r.base / 0x1000 % 64 + (r.size / 0x1000 - 1) % 64

/-- The page of the array that holds the `struct page` of the last frame of the region. -/
def MemmapRegion.lastPage (r : MemmapRegion) : ℕ :=
  (r.base / 0x1000 + r.size / 0x1000 - 1) / 64

/-- **The pages that the strides have to hit** are all hit when the last ones of the regions are. -/
theorem forall_strides_iff :
    (∀ pfn ∈ frames regions, ∃ r ∈ regions, r.Strides (pfn / 64)) ↔
      ∀ r ∈ regions, r.FallsShort → ∃ r' ∈ regions, r'.Strides r.lastPage := by
  have hpage : pageSize = 0x1000 := rfl
  constructor
  · intro h r hr hshort
    obtain ⟨-, hshort⟩ := hshort
    refine h (r.base / 0x1000 + r.size / 0x1000 - 1) (List.mem_flatMap.mpr ⟨r, hr, ?_⟩)
    rw [MemmapRegion.frames, List.mem_range'_1, hpage]
    omega
  · intro h pfn hpfn
    obtain ⟨r, hr, hmem⟩ := List.mem_flatMap.mp hpfn
    rw [MemmapRegion.frames, List.mem_range'_1, hpage] at hmem
    have hpos : 0 < r.size := by omega
    by_cases hown : pfn / 64 ≤ r.base / 0x1000 / 64 + (r.size / 0x1000 - 1) / 64
    · exact ⟨r, hr, hpos, Nat.div_le_div_right hmem.1, hown⟩
    · -- only the last page is beyond the strides of the region itself
      have hlast : pfn / 64 = r.lastPage := by
        rw [MemmapRegion.lastPage]
        omega
      rw [hlast] at hown ⊢
      refine h r hr ⟨hpos, ?_⟩
      rw [MemmapRegion.lastPage] at hown
      omega

end Regions

/-- **The `struct page` array.** With enough bump pages, `sparse_init` maps the `struct page` of
every usable frame just when no region falls short of its last frame, but for regions whose last
`struct page` another region maps. -/
theorem sparseInit_maps_iff {P : PageSource} {s s' : MapperState P} {T : ℕ → Set (BitVec 64)}
    {r : BitVec 64} {regions : List MemmapRegion} (htables : s.KernelTables T r)
    (hregions : RegionsAligned regions)
    (hinit : ∀ pfn ∈ frames regions, s.isMappedNolock (s.va r) (pfnToPage pfn) = false)
    (hrun : s.sparseInit (s.va r) regions = some s') :
    (∀ pfn ∈ frames regions, s'.isMappedNolock (s.va r) (pfnToPage pfn) = true) ↔
      ∀ region ∈ regions, region.FallsShort →
        ∃ region' ∈ regions, region'.Strides region.lastPage := by
  rw [← forall_strides_iff]
  refine forall_congr' fun pfn => forall_congr' fun hpfn => ?_
  exact htables.isMapped_sparseInit hregions hrun (hregions.lt_of_mem hpfn) (hinit pfn hpfn)

/-! ### A region of two frames -/

/-- The region starts at frame 63. -/
def straddling : List MemmapRegion := [⟨0x3f000, 0x2000⟩]

theorem regionsAligned_straddling : RegionsAligned straddling := ⟨by decide, by decide⟩

section Mono

variable {P : PageSource} {s : MapperState P} {lo lo' k : ℕ} {i : BitVec 64}
  {T : ℕ → Set (BitVec 64)}

theorem InRange.mono (h : InRange lo' k i) (hlo : lo ≤ lo') : InRange lo k i :=
  ⟨h.1, fun hk => hlo.trans (h.2 hk)⟩

theorem Tables.mono (h : Tables s lo T) (hlo : lo ≤ lo') : Tables s lo' T :=
  ⟨h.isPage, h.used, h.level, fun ht hk hi => h.child ht hk (hi.mono hlo)⟩

theorem Unshared.mono (h : Unshared s lo T) (hlo : lo ≤ lo') : Unshared s lo' T :=
  ⟨fun ht hk hi => h.ps ht hk (hi.mono hlo),
    fun ht ht' hk hi hj => h.inj ht ht' hk (hi.mono hlo) (hj.mono hlo)⟩

theorem AbsentClear.mono (h : AbsentClear s lo T) (hlo : lo ≤ lo') : AbsentClear s lo' T :=
  fun ht hk hi => h ht hk (hi.mono hlo)

end Mono

theorem kernelTables_oneEntryTable :
    (oneEntryTable 0).KernelTables (rootOnly 0x1000) 0x1000 := by
  have hlo : 0 ≤ 384 := by decide
  obtain ⟨ht, hu⟩ := tables_oneEntryTable (e := 0) (by decide)
  exact ⟨mem_rootOnly.mpr ⟨rfl, rfl⟩, ht.mono hlo, hu.mono hlo, absentClear_oneEntryTable.mono hlo⟩

theorem isMapped_oneEntryTable (cr3 v : BitVec 64) :
    (oneEntryTable 0).isMappedNolock cr3 v = false := by
  have hmem : ∀ a, (oneEntryTable 0).mem a = 0 := fun a => ite_self 0
  have hps : ¬(0 : BitVec 64) &&& pgPs ≠ 0 := by decide
  have hpresent : ¬(0 : BitVec 64) &&& pgPresent ≠ 0 := by decide
  rw [MapperState.isMappedNolock, MapperState.isMappedWalk, hmem, if_neg hps, if_neg hpresent]

/-- **A region of two frames**, 63 and 64. The `struct page` of the second one is not mapped. -/
theorem not_sparseInit_maps :
    ¬∀ (P : PageSource) (s s' : MapperState P) (T : ℕ → Set (BitVec 64)) (r : BitVec 64)
      (regions : List MemmapRegion), s.KernelTables T r → RegionsAligned regions →
      (∀ pfn ∈ frames regions, s.isMappedNolock (s.va r) (pfnToPage pfn) = false) →
      s.sparseInit (s.va r) regions = some s' →
      ∀ pfn ∈ frames regions, s'.isMappedNolock (s.va r) (pfnToPage pfn) = true := by
  intro hall
  have hsome : ((oneEntryTable 0).sparseInit 0x1000 straddling).isSome = true := by
    decide +kernel
  obtain ⟨s', hrun⟩ := Option.isSome_iff_exists.mp hsome
  have hmapped := hall _ (oneEntryTable 0) s' _ _ straddling kernelTables_oneEntryTable
    regionsAligned_straddling (fun _ _ => isMapped_oneEntryTable _ _) hrun 64 (by decide)
  obtain ⟨r, hr, hstrides⟩ := (kernelTables_oneEntryTable.isMapped_sparseInit
    regionsAligned_straddling hrun (by decide) (isMapped_oneEntryTable _ _)).mp hmapped
  obtain rfl := List.mem_singleton.mp hr
  exact absurd hstrides.2.2 (by decide)

/-- The next two frames have their `struct page` on one page. -/
theorem sparseInit_maps_two :
    ∃ s', (oneEntryTable 0).sparseInit 0x1000 [⟨0x40000, 0x2000⟩] = some s' ∧
      ∀ pfn ∈ frames [⟨0x40000, 0x2000⟩], s'.isMappedNolock 0x1000 (pfnToPage pfn) = true := by
  have hsome : ((oneEntryTable 0).sparseInit 0x1000 [⟨0x40000, 0x2000⟩]).isSome = true := by
    decide +kernel
  obtain ⟨s', hrun⟩ := Option.isSome_iff_exists.mp hsome
  refine ⟨s', hrun, (sparseInit_maps_iff kernelTables_oneEntryTable ⟨by decide, by decide⟩
    (fun _ _ => isMapped_oneEntryTable _ _) hrun).mpr ?_⟩
  intro region hregion hshort
  obtain rfl := List.mem_singleton.mp hregion
  exact absurd hshort.2 (by decide)

end GoofyOs
